import LiveDoc.Evaluation.Cache
import LiveDoc.Proofs.Entries
import LiveDoc.Proofs.Related

/-! # Stamps and freshness

A write leaves an entry fresh exactly when it is unrelated to all that the entry has read. Overwritten
stamps are older than those that replace them, and dropped stamps are no younger than any entry, so
neither loses anything.
-/

namespace LiveDoc

namespace Stamps

theorem after_mark (stamps : Stamps) (slot s : Path) (epoch e : Nat) :
    (stamps.mark slot epoch).after s e = if s = slot then decide (e < epoch) else stamps.after s e := by
  unfold after mark
  rw [Assoc.lookup_put]
  split <;> simp

theorem after_marks (slots : List Path) (stamps : Stamps) (s : Path) (epoch e : Nat) :
    (slots.foldl (fun stamps slot => stamps.mark slot epoch) stamps).after s e =
      if s ∈ slots then decide (e < epoch) else stamps.after s e := by
  induction slots generalizing stamps with
  | nil => simp
  | cons slot rest ih =>
    rw [List.foldl_cons, ih, after_mark]
    by_cases hr : s ∈ rest <;> by_cases hs : s = slot <;> simp [hr, hs]

/-- Dropping stamps of an epoch or older changes nothing for later epochs. -/
theorem after_since {stamps : Stamps} (h : (stamps.map (·.1)).Nodup) {floor e : Nat}
    (he : floor ≤ e) (s : Path) : (stamps.since floor).after s e = stamps.after s e := by
  unfold after since
  rw [Assoc.lookup_filter h]
  cases stamps.lookup s with
  | none => rfl
  | some stamp =>
    by_cases hs : floor < stamp
    · simp [Option.filter, hs]
    · have : ¬ e < stamp := by omega
      simp [Option.filter, hs, this]

end Stamps

namespace Cache

/-- A write concerns an entry if it is related to something that the entry has read. -/
def Concerns (write : Path) (reads : List Path) : Prop :=
  ∃ slot ∈ reads, slot.Related write.logical

/-- Every stamp and every entry belongs to an epoch that has come, and no slot has two stamps of one
kind. -/
structure Timely (c : Cache) : Prop where
  written_keys : (c.written.map (·.1)).Nodup
  touched_keys : (c.touched.map (·.1)).Nodup
  written_le : ∀ s e, c.written.after s e → e < c.epoch
  touched_le : ∀ s e, c.touched.after s e → e < c.epoch
  entries_le : ∀ pair ∈ c.entries, pair.2.epoch ≤ c.epoch

/-- Something kept or running belongs to an epoch or to an older one. -/
def Recalls (c : Cache) (epoch : Nat) : Prop :=
  ∃ e ∈ c.entries.map (·.2.epoch) ++ c.running, e ≤ epoch

theorem timely_empty : empty.Timely where
  written_keys := .nil
  touched_keys := .nil
  written_le _ _ h := by simp [empty, Stamps.after] at h
  touched_le _ _ h := by simp [empty, Stamps.after] at h
  entries_le _ h := absurd h List.not_mem_nil

variable {c : Cache}

theorem isFresh_iff {entry : CacheEntry} : c.isFresh entry ↔ ∀ slot ∈ entry.reads,
    ¬ c.touched.after slot entry.epoch ∧
      ∀ n < slot.length, ¬ c.written.after (slot.take n) entry.epoch := by
  simp [isFresh, List.all_eq_true]

/-- Entries of the present epoch are fresh. -/
theorem Timely.isFresh_of_epoch (h : c.Timely) {entry : CacheEntry} (he : c.epoch ≤ entry.epoch) :
    c.isFresh entry := by
  refine isFresh_iff.2 fun slot _ => ⟨fun ht => ?_, fun n _ hw => ?_⟩
  · have := h.touched_le _ _ ht
    omega
  · have := h.written_le _ _ hw
    omega

theorem Recalls.floor {c : Cache} {epoch : Nat} (h : c.Recalls epoch) :
    ∃ floor, c.floor? = some floor ∧ floor ≤ epoch := by
  obtain ⟨e, he, hle⟩ := h
  cases hf : c.floor? with
  | none =>
    rw [floor?, List.min?_eq_none_iff] at hf
    simp [hf] at he
  | some floor => exact ⟨floor, rfl, Nat.le_trans ((List.min?_eq_some_iff.1 hf).2 e he) hle⟩

/-! ## Evaluations -/

theorem Timely.begin (h : c.Timely) : c.begin.Timely :=
  ⟨h.written_keys, h.touched_keys, h.written_le, h.touched_le, h.entries_le⟩

theorem Timely.finish (h : c.Timely) (epoch : Nat) : (c.finish epoch).Timely :=
  ⟨h.written_keys, h.touched_keys, h.written_le, h.touched_le, h.entries_le⟩

theorem Timely.insert (h : c.Timely) (key : CacheKey) {entry : CacheEntry}
    (he : entry.epoch ≤ c.epoch) : (c.insert key entry).Timely := by
  refine ⟨h.written_keys, h.touched_keys, h.written_le, h.touched_le, fun pair hp => ?_⟩
  rcases Assoc.mem_of_mem_put hp with rfl | hp
  · exact he
  · exact h.entries_le pair hp

/-! ## Dropping stamps -/

theorem prune_eq (c : Cache) : ∃ written touched : Stamps,
    c.prune = { c with written := written, touched := touched } := by
  unfold prune
  split <;> exact ⟨_, _, rfl⟩

@[simp] theorem prune_entries (c : Cache) : c.prune.entries = c.entries := by
  obtain ⟨_, _, h⟩ := c.prune_eq
  rw [h]

@[simp] theorem prune_epoch (c : Cache) : c.prune.epoch = c.epoch := by
  obtain ⟨_, _, h⟩ := c.prune_eq
  rw [h]

@[simp] theorem prune_running (c : Cache) : c.prune.running = c.running := by
  obtain ⟨_, _, h⟩ := c.prune_eq
  rw [h]

theorem nodup_since {stamps : Stamps} (h : (stamps.map (·.1)).Nodup) (epoch : Nat) :
    ((stamps.since epoch).map (·.1)).Nodup :=
  h.sublist (List.filter_sublist.map _)

theorem after_of_after_since {stamps : Stamps} (h : (stamps.map (·.1)).Nodup) {floor e : Nat}
    {s : Path} (ha : (stamps.since floor).after s e) : stamps.after s e := by
  unfold Stamps.after Stamps.since at *
  rw [Assoc.lookup_filter h] at ha
  cases hl : stamps.lookup s with
  | none => simp [hl] at ha
  | some stamp =>
    rw [hl] at ha
    by_cases hs : floor < stamp
    · simpa [Option.filter, hs] using ha
    · simp [Option.filter, hs] at ha

theorem Timely.prune (h : c.Timely) : c.prune.Timely := by
  unfold Cache.prune
  split
  · exact ⟨nodup_since h.written_keys _, nodup_since h.touched_keys _,
      fun s e ha => h.written_le s e (after_of_after_since h.written_keys ha),
      fun s e ha => h.touched_le s e (after_of_after_since h.touched_keys ha), h.entries_le⟩
  · exact ⟨.nil, .nil, fun s e ha => by simp [Stamps.after] at ha,
      fun s e ha => by simp [Stamps.after] at ha, h.entries_le⟩

/-- Dropped stamps make nothing stale that is kept or still running. -/
theorem Timely.isFresh_prune (h : c.Timely) {entry : CacheEntry} (hr : c.Recalls entry.epoch) :
    c.prune.isFresh entry ↔ c.isFresh entry := by
  obtain ⟨floor, hf, hle⟩ := hr.floor
  simp only [isFresh_iff, Cache.prune, hf, Stamps.after_since h.touched_keys hle,
    Stamps.after_since h.written_keys hle]

theorem recalls_prune {epoch : Nat} : c.prune.Recalls epoch ↔ c.Recalls epoch := by
  simp only [Recalls, prune_entries, prune_running]

/-- What is kept belongs to no epoch older than all that are recalled. -/
theorem recalls_of_lookup {key : CacheKey} {entry : CacheEntry}
    (h : c.entries.lookup key = some entry) : c.Recalls entry.epoch :=
  ⟨entry.epoch, List.mem_append_left _ (List.mem_map_of_mem (Assoc.mem_of_lookup h)), Nat.le_refl _⟩

/-! ## Writes -/

/-- A cache with a write stamped and the entries of its slot gone, before old stamps are dropped. -/
def stamped (c : Cache) (path : Path) : Cache :=
  { c with
    epoch := c.epoch + 1
    written := Stamps.mark c.written path.logical (c.epoch + 1)
    touched := path.logical.stages.foldl (fun stamps stage => Stamps.mark stamps stage (c.epoch + 1))
      c.touched
    entries := c.entries.filter fun (key, _) => key.path.logical != path.logical }

theorem invalidate_eq (c : Cache) (path : Path) : c.invalidate path = (c.stamped path).prune :=
  rfl

@[simp] theorem invalidate_running (c : Cache) (path : Path) :
    (c.invalidate path).running = c.running :=
  prune_running _

theorem lookup_entries_stamped (c : Cache) (path : Path) (key : CacheKey) :
    (c.stamped path).entries.lookup key =
      if key.path.logical = path.logical then none else c.entries.lookup key := by
  have h := Assoc.lookup_filter_key (fun key : CacheKey => key.path.logical != path.logical)
    c.entries key
  simp only [bne_iff_ne, ne_eq, ite_not] at h
  exact h

/-- A write drops the entries of its own slot and no others. -/
theorem lookup_entries_invalidate (c : Cache) (path : Path) (key : CacheKey) :
    (c.invalidate path).entries.lookup key =
      if key.path.logical = path.logical then none else c.entries.lookup key := by
  rw [invalidate_eq, prune_entries, lookup_entries_stamped]

theorem recalls_of_stamped {epoch : Nat} {path : Path} (h : (c.stamped path).Recalls epoch) :
    c.Recalls epoch := by
  obtain ⟨e, he, hle⟩ := h
  refine ⟨e, ?_, hle⟩
  rcases List.mem_append.1 he with hm | hm
  · obtain ⟨pair, hp, rfl⟩ := List.mem_map.1 hm
    exact List.mem_append_left _ (List.mem_map_of_mem (List.mem_filter.1 hp).1)
  · exact List.mem_append_right _ hm

theorem nodup_marks {stamps : Stamps} (h : (stamps.map (·.1)).Nodup) (slots : List Path)
    (epoch : Nat) :
    ((slots.foldl (fun stamps slot => stamps.mark slot epoch) stamps).map (·.1)).Nodup := by
  induction slots generalizing stamps with
  | nil => exact h
  | cons slot rest ih => exact ih (Assoc.nodup_put h)

theorem Timely.stamped (h : c.Timely) (path : Path) : (c.stamped path).Timely where
  written_keys := Assoc.nodup_put h.written_keys
  touched_keys := nodup_marks h.touched_keys _ _
  written_le s e ha := by
    simp only [Cache.stamped, Stamps.after_mark] at ha ⊢
    split at ha
    · exact of_decide_eq_true ha
    · exact Nat.lt_succ_of_lt (h.written_le s e ha)
  touched_le s e ha := by
    simp only [Cache.stamped, Stamps.after_marks] at ha ⊢
    split at ha
    · exact of_decide_eq_true ha
    · exact Nat.lt_succ_of_lt (h.touched_le s e ha)
  entries_le pair hp := Nat.le_succ_of_le (h.entries_le pair (List.mem_filter.1 hp).1)

theorem Timely.invalidate (h : c.Timely) (path : Path) : (c.invalidate path).Timely :=
  (h.stamped path).prune

/-- A stamped write makes exactly the entries stale that it concerns. -/
theorem isFresh_stamped {entry : CacheEntry} (he : entry.epoch ≤ c.epoch) (path : Path) :
    (c.stamped path).isFresh entry ↔ c.isFresh entry ∧ ¬ Concerns path entry.reads := by
  have hlt : entry.epoch < c.epoch + 1 := by omega
  simp only [isFresh_iff, stamped, Stamps.after_mark, Stamps.after_marks, Path.mem_stages_iff]
  constructor
  · intro h
    refine ⟨fun slot hs => ?_, ?_⟩
    · obtain ⟨ht, hw⟩ := h slot hs
      refine ⟨fun ha => ht ?_, fun n hn ha => hw n hn ?_⟩
      · split
        · exact decide_eq_true hlt
        · exact ha
      · split
        · exact decide_eq_true hlt
        · exact ha
    · rintro ⟨slot, hs, hr⟩
      obtain ⟨ht, hw⟩ := h slot hs
      rcases hr with hr | hr
      · exact ht (by rw [if_pos hr]; exact decide_eq_true hlt)
      · by_cases heq : path.logical = slot
        · exact ht (by rw [if_pos (heq ▸ List.prefix_refl _)]; exact decide_eq_true hlt)
        · obtain ⟨n, hn, hp⟩ := Path.exists_take_eq_iff.2 ⟨hr, heq⟩
          exact hw n hn (by rw [if_pos hp]; exact decide_eq_true hlt)
  · rintro ⟨h, hc⟩ slot hs
    have hr : ¬ slot.Related path.logical := fun hr => hc ⟨slot, hs, hr⟩
    refine ⟨?_, fun n hn => ?_⟩
    · rw [if_neg fun hp => hr (.inl hp)]
      exact (h slot hs).1
    · rw [if_neg fun hp => hr (.inr (Path.exists_take_eq_iff.1 ⟨n, hn, hp⟩).1)]
      exact (h slot hs).2 n hn

/-- What a write leaves of a result that is kept, or may still be. -/
theorem Timely.isFresh_invalidate (h : c.Timely) {entry : CacheEntry} {path : Path}
    (he : entry.epoch ≤ c.epoch) (hr : (c.stamped path).Recalls entry.epoch) :
    (c.invalidate path).isFresh entry ↔ c.isFresh entry ∧ ¬ Concerns path entry.reads := by
  rw [invalidate_eq, (h.stamped path).isFresh_prune hr, isFresh_stamped he]

/-! ## Look-up -/

theorem lookup_eq_some_iff {key : CacheKey} {entry : CacheEntry} :
    c.lookup key = some entry ↔ c.entries.lookup key = some entry ∧ c.isFresh entry := by
  rw [lookup, Option.filter_eq_some_iff]

theorem Timely.lookup_insert (h : c.Timely) (key : CacheKey) {entry : CacheEntry}
    (he : c.epoch ≤ entry.epoch) (k : CacheKey) :
    (c.insert key entry).lookup k = if k = key then some entry else c.lookup k := by
  have hf : (c.insert key entry).isFresh = c.isFresh := rfl
  rw [Cache.lookup, hf, Cache.insert, Assoc.lookup_put]
  split
  · rw [Option.filter_some, if_pos (h.isFresh_of_epoch he)]
  · rfl

theorem Timely.clear (h : c.Timely) : c.clear.Timely :=
  Timely.prune ⟨h.written_keys, h.touched_keys, h.written_le, h.touched_le,
    fun _ hp => absurd hp List.not_mem_nil⟩

@[simp] theorem lookup_clear (c : Cache) (key : CacheKey) : c.clear.lookup key = none := by
  rw [Cache.lookup, Cache.clear, prune_entries]
  rfl

/-- A write takes away the entries that it concerns and those of its own slot. -/
theorem Timely.lookup_invalidate (h : c.Timely) {path : Path} {key : CacheKey} {entry : CacheEntry} :
    (c.invalidate path).lookup key = some entry ↔ c.lookup key = some entry ∧
      key.path.logical ≠ path.logical ∧ ¬ Concerns path entry.reads := by
  rw [lookup_eq_some_iff, lookup_eq_some_iff, lookup_entries_invalidate]
  by_cases hk : key.path.logical = path.logical
  · simp [hk]
  · rw [if_neg hk]
    have hs (hl : c.entries.lookup key = some entry) :
        (c.stamped path).entries.lookup key = some entry := by
      rw [lookup_entries_stamped, if_neg hk, hl]
    constructor
    · rintro ⟨hl, hf⟩
      obtain ⟨hf, hc⟩ :=
        (h.isFresh_invalidate (h.entries_le _ (Assoc.mem_of_lookup hl)) (recalls_of_lookup (hs hl))).1 hf
      exact ⟨⟨hl, hf⟩, hk, hc⟩
    · rintro ⟨⟨hl, hf⟩, -, hc⟩
      exact ⟨hl, (h.isFresh_invalidate (h.entries_le _ (Assoc.mem_of_lookup hl)) (recalls_of_lookup (hs hl))).2
        ⟨hf, hc⟩⟩

end Cache

end LiveDoc

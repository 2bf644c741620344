import LiveDoc.Proofs.JsonText
import LiveDoc.Proofs.Reading
import LiveDoc.Proofs.Traffic

/-! # Reads that share an evaluation

Two reads share an evaluation exactly if they ask for the same, the first has not ended when the
second begins, and nothing has changed in between. What is in flight are the evaluations that have
not ended.
-/

namespace LiveDoc

variable {σ : Type}

namespace ReadOptions

/-- Two reads ask for the same: neither is fresh, and they have one path, one fingerprint of the
context of the call and one fallback. -/
structure Alike (base base' : Path) (text text' : String) (asked asked' : ReadOptions) : Prop where
  fresh : asked.fresh = false ∧ asked'.fresh = false
  path : ∃ path, base.resolve text = .ok path ∧ base'.resolve text' = .ok path
  scope : asked.own.fingerprint = asked'.own.fingerprint
  fallback : asked.fallback = asked'.fallback

theorem scope_eq (asked : ReadOptions) :
    (asked.context.map Context.fingerprint).getD "" = asked.own.fingerprint := by
  rw [own]
  cases asked.context <;> rfl

end ReadOptions

namespace Tree

variable {t t' : Tree σ} {path path' : Path} {asked asked' : ReadOptions}

/-- Keys are equal for reads of one generation that ask for the same. -/
theorem readKey_eq_iff : t.readKey path asked = t'.readKey path' asked' ↔
    path = path' ∧ asked.own.fingerprint = asked'.own.fingerprint ∧
      asked.fallback = asked'.fallback ∧ t.generation = t'.generation := by
  -- No value is written as the empty text, which stands for no fallback.
  have hfallback : (asked.fallback.map Value.json).getD "" =
      (asked'.fallback.map Value.json).getD "" ↔ asked.fallback = asked'.fallback := by
    cases asked.fallback with
    | none =>
      cases asked'.fallback with
      | none => simp
      | some v => simp [Ne.symm v.json_ne_empty]
    | some v =>
      cases asked'.fallback with
      | none => simp [v.json_ne_empty]
      | some w =>
        rw [Option.some.injEq]
        exact ⟨Value.json_injective, congrArg Value.json⟩
  simp only [readKey, ReadKey.mk.injEq, ReadOptions.scope_eq, hfallback]

/-- The number of an evaluation that a new read has joined, with what it is joined by. -/
theorem Orderly.start_joined {base : Path} {text : String} {n : Nat} (h : t.Orderly)
    (hs : (t.start base text asked).2 = .joined n) :
    ∃ path, base.resolve text = .ok path ∧ asked.fresh = false ∧
      n < (t.start base text asked).1.shared.length ∧
      (n < t.shared.length → (t.readKey path asked, n) ∈ t.inflight) ∧
      ((t.start base text asked).1.result? (.joined n) = none →
        (t.readKey path asked, n) ∈ (t.start base text asked).1.inflight) := by
  have hp := t.precedes_start base text asked
  rcases t.start_cases base text asked with
    ⟨e, -, he⟩ | ⟨path, hpath, ⟨-, step, -, he⟩ | ⟨hf, ⟨m, hl, he⟩ | ⟨-, step, -, he⟩⟩⟩ <;>
    rw [he] at hs hp <;> cases hs
  · have hm := Assoc.mem_of_lookup hl
    have hn := (h.unended n).1 (List.mem_map_of_mem hm)
    refine ⟨path, hpath, hf, ?_, fun _ => hm, fun hr => ?_⟩ <;> rw [he] at *
    · exact Nat.lt_of_lt_of_le hn.1 hp.length_le
    · exact hp.joinable _ hm hr
  · refine ⟨path, hpath, hf, ?_, fun hn => absurd hn (Nat.lt_irrefl _), fun hr => ?_⟩ <;> rw [he] at *
    · rw [length_keepShared]
      exact lt_opening
    · rw [result?_keepShared lt_opening] at hr
      exact mem_inflight_keepShared.2
        ⟨List.mem_append_right _ (List.mem_singleton_self _), fun _ => hr⟩

/-- A read that may share is given the number that its key has, else the next one. -/
theorem start_number {base : Path} {text : String} (t : Tree σ) (hf : asked.fresh = false)
    (hpath : base.resolve text = .ok path) : (t.start base text asked).2 =
      .joined ((t.inflight.lookup (t.readKey path asked)).getD t.shared.length) := by
  simp only [start, hpath, startAt, hf, Bool.false_eq_true, if_false]
  cases t.inflight.lookup (t.readKey path asked) <;> rfl

end Tree

namespace Traffic

/-- The reads at two places have joined one evaluation. -/
def Share (s : Traffic σ) (place place' : Nat) : Prop :=
  ∃ n asked asked', s.reads[place]? = some (asked, .joined n) ∧
    s.reads[place']? = some (asked', .joined n)

variable {s s₁ : Traffic σ} {base base' : Path} {text text' : String} {asked asked' : ReadOptions}
  {between : List (Act σ)}

theorem reads_start (s : Traffic σ) (base : Path) (text : String) (asked : ReadOptions) :
    (s.act (.start base text asked)).reads[s.reads.length]? =
      some (asked, (s.tree.start base text asked).2) := by
  simp [act]

/-- What a read was given when it began is in its place ever after. -/
theorem reads_started (hs₁ : (s.act (.start base text asked)).run between = s₁)
    {asked' : ReadOptions} {n : Nat} : s₁.reads[s.reads.length]? = some (asked', .joined n) ↔
      asked = asked' ∧ (s.tree.start base text asked).2 = .joined n := by
  have hplace : s.reads.length < (s.act (.start base text asked)).reads.length := by simp [act]
  rw [← hs₁, reads_run hplace, reads_start, Option.some.injEq, Prod.mk.injEq]

theorem lt_reads_started (hs₁ : (s.act (.start base text asked)).run between = s₁) :
    s.reads.length < s₁.reads.length := by
  have hplace : s.reads.length < (s.act (.start base text asked)).reads.length := by simp [act]
  exact hs₁ ▸ Nat.lt_of_lt_of_le hplace (length_reads_run _ between)

theorem result?_of_reads {place n : Nat} (h : s.reads[place]? = some (asked, .joined n)) :
    s.result? place = s.tree.result? (.joined n) := by
  rw [result?, h, Option.bind_some]

/-- The later of two reads began right now; they share if both were given one number. -/
theorem share_started_iff (hs₁ : (s.act (.start base text asked)).run between = s₁) :
    (s₁.act (.start base' text' asked')).Share s.reads.length s₁.reads.length ↔
      ∃ n, (s.tree.start base text asked).2 = .joined n ∧
        (s₁.tree.start base' text' asked').2 = .joined n := by
  simp only [Share, reads_act (lt_reads_started hs₁), reads_started hs₁, reads_start,
    Option.some.injEq, Prod.mk.injEq]
  constructor
  · rintro ⟨n, a, a', ⟨-, hfirst⟩, -, hsecond⟩
    exact ⟨n, hfirst, hsecond⟩
  · rintro ⟨n, hfirst, hsecond⟩
    exact ⟨n, asked, asked', ⟨rfl, hfirst⟩, rfl, hsecond⟩

/-- If a read shares the evaluation of an earlier one, it has found it by a key that has not
changed. -/
theorem alike_of_share (h : s.Orderly) (hs₁ : (s.act (.start base text asked)).run between = s₁)
    (hshare : (s₁.act (.start base' text' asked')).Share s.reads.length s₁.reads.length) :
    ReadOptions.Alike base base' text text' asked asked' ∧
      (s.act (.start base text asked)).Quiet between ∧ s₁.result? s.reads.length = none := by
  obtain ⟨n, hfirst, hsecond⟩ := (share_started_iff hs₁).1 hshare
  have hplace := (reads_started hs₁).2 ⟨rfl, hfirst⟩
  have h' : (s.act (.start base text asked)).Orderly := h.start base text asked
  have hp := (s.act (.start base text asked)).precedes_run between
  obtain ⟨path, hpath, hf, hn, -, hjoin⟩ := h.tree.start_joined hfirst
  have h₁ : s₁.Orderly := hs₁ ▸ h'.run between
  rw [hs₁] at hp
  obtain ⟨path', hpath', hf', -, hfound, -⟩ := h₁.tree.start_joined hsecond
  -- The key that the later read looked up was in flight when the earlier one had just begun.
  have hkey' : (s₁.tree.readKey path' asked', n) ∈ s₁.tree.inflight :=
    hfound (Nat.lt_of_lt_of_le hn hp.length_le)
  have hkey'₀ := hp.old _ hkey' hn
  have hunended := ((h'.tree.unended n).1 (List.mem_map_of_mem hkey'₀)).2
  have hkey := List.inj_on_of_nodup_map h'.tree.numbers (hjoin hunended) hkey'₀ rfl
  obtain ⟨rfl, hscope, hfallback, hgeneration⟩ := Tree.readKey_eq_iff.1 (congrArg Prod.fst hkey)
  refine ⟨⟨⟨hf, hf'⟩, ⟨path, hpath, hpath'⟩, hscope, hfallback⟩, ?_, ?_⟩
  · rw [← generation_run, hs₁, ← hgeneration]
    exact (s.tree.generation_start base text asked).symm
  · rw [result?_of_reads hplace]
    exact ((h₁.tree.unended n).1 (List.mem_map_of_mem hkey')).2

/-- A read finds the evaluation of an earlier one by the key that they have in common. -/
theorem share_of_alike (h : s.Orderly) (hs₁ : (s.act (.start base text asked)).run between = s₁)
    (ha : ReadOptions.Alike base base' text text' asked asked')
    (hq : (s.act (.start base text asked)).Quiet between)
    (hr : s₁.result? s.reads.length = none) :
    (s₁.act (.start base' text' asked')).Share s.reads.length s₁.reads.length := by
  obtain ⟨path, hpath, hpath'⟩ := ha.path
  have h' : (s.act (.start base text asked)).Orderly := h.start base text asked
  have hp := (s.act (.start base text asked)).precedes_run between
  have h₁ : s₁.Orderly := hs₁ ▸ h'.run between
  rw [← generation_run, hs₁] at hq
  rw [hs₁] at hp
  obtain ⟨n, hfirst⟩ : ∃ n, (s.tree.start base text asked).2 = .joined n :=
    ⟨_, s.tree.start_number ha.fresh.1 hpath⟩
  obtain ⟨path₀, hpath₀, -, -, -, hjoin⟩ := h.tree.start_joined hfirst
  cases hpath.symm.trans hpath₀
  have hplace := (reads_started hs₁).2 ⟨rfl, hfirst⟩
  rw [result?_of_reads hplace] at hr
  have hunended : (s.tree.start base text asked).1.result? (.joined n) = none := by
    cases he : (s.tree.start base text asked).1.result? (.joined n) with
    | none => rfl
    | some r => exact absurd (hr.symm.trans (hp.ended n r he)) nofun
  have hkey : s.tree.readKey path asked = s₁.tree.readKey path asked' :=
    Tree.readKey_eq_iff.2 ⟨rfl, ha.scope, ha.fallback,
      (s.tree.generation_start base text asked).symm.trans hq.symm⟩
  have hfound := h₁.tree.lookup_eq (hp.joinable _ (hjoin hunended) hr)
  refine (share_started_iff hs₁).2 ⟨n, hfirst, ?_⟩
  rw [s₁.tree.start_number ha.fresh.2 hpath', ← hkey, hfound, Option.getD_some]

/-- Reads that share an evaluation have equal results at every moment. -/
theorem result?_of_share {place place' : Nat} (h : s.Share place place') (after : List (Act σ)) :
    (s.run after).result? place = (s.run after).result? place' := by
  obtain ⟨n, asked, asked', hplace, hplace'⟩ := h
  have hfirst := (reads_run (List.getElem?_eq_some_iff.1 hplace).1 after).2 hplace
  have hsecond := (reads_run (List.getElem?_eq_some_iff.1 hplace').1 after).2 hplace'
  rw [result?_of_reads hfirst, result?_of_reads hsecond]

/-- An evaluation in flight stays so, under its key, until it ends, and no longer. -/
theorem mem_inflight_run_iff (h : s.Orderly) {e : ReadKey × Nat} (he : e ∈ s.tree.inflight)
    (after : List (Act σ)) :
    e ∈ (s.run after).tree.inflight ↔ (s.run after).tree.result? (.joined e.2) = none := by
  refine ⟨fun hm => ?_, (s.precedes_run after).joinable e he⟩
  exact (((h.run after).tree.unended e.2).1 (List.mem_map_of_mem hm)).2

/-- Nothing is in flight exactly if no read is pending that may share. -/
theorem inflight_eq_nil_iff (h : s.Orderly) : s.tree.inflight = [] ↔ ¬ s.Pending := by
  constructor
  · rintro hnil ⟨asked, reading, hread, hf, hr⟩
    cases reading with
    | alone p => exact h.alone asked p hread hf hr
    | joined n =>
      have hn := (h.tree.unended n).2 ⟨(h.joined asked n hread).2, hr⟩
      rw [hnil] at hn
      cases hn
  · intro hidle
    refine List.eq_nil_iff_forall_not_mem.2 fun e he => hidle ?_
    obtain ⟨hn, hr⟩ := (h.tree.unended e.2).1 (List.mem_map_of_mem he)
    obtain ⟨asked, hread⟩ := h.begun e.2 hn
    exact ⟨asked, .joined e.2, hread, (h.joined asked e.2 hread).1, hr⟩

/-- However reads, writes, changes of the context and cleared caches interleave: two reads share an
evaluation exactly if they ask for the same, nothing has changed between their beginnings and the
first had not ended by then; they have equal results at every later moment. What is in flight are
the evaluations that have not ended, each under its key until then, so that nothing is while no read
is pending that may share. -/
theorem reads_coalesce (document : Value) (options : Options σ) (host : σ)
    (before between : List (Act σ)) (base base' : Path) (text text' : String)
    (asked asked' : ReadOptions) :
    let s := (idle (Tree.ofDocument document options host)).run before
    let first := s.act (.start base text asked)
    let s₁ := first.run between
    let s₂ := s₁.act (.start base' text' asked')
    (s₂.Share s.reads.length s₁.reads.length ↔
      ReadOptions.Alike base base' text text' asked asked' ∧ first.Quiet between ∧
        s₁.result? s.reads.length = none) ∧
    (s₂.Share s.reads.length s₁.reads.length → ∀ after,
      (s₂.run after).result? s.reads.length = (s₂.run after).result? s₁.reads.length) ∧
    (∀ n, n ∈ s.tree.inflight.map (·.2) ↔
      n < s.tree.shared.length ∧ s.tree.result? (.joined n) = none) ∧
    (∀ e ∈ s.tree.inflight, ∀ after, e ∈ (s.run after).tree.inflight ↔
      (s.run after).tree.result? (.joined e.2) = none) ∧
    (s.tree.inflight = [] ↔ ¬ s.Pending) := by
  intro s first s₁ s₂
  have h : s.Orderly := (Orderly.idle (.ofDocument document options host) rfl).run before
  have hshares : s₂.Share s.reads.length s₁.reads.length ↔
      ReadOptions.Alike base base' text text' asked asked' ∧ first.Quiet between ∧
        s₁.result? s.reads.length = none := by
    constructor
    · intro hshare
      exact alike_of_share h rfl hshare
    · rintro ⟨ha, hq, hr⟩
      exact share_of_alike h rfl ha hq hr
  exact ⟨hshares, result?_of_share, h.tree.unended, fun e he => mem_inflight_run_iff h he,
    inflight_eq_nil_iff h⟩

end Traffic

end LiveDoc

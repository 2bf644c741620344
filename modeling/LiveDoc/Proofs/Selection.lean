import LiveDoc.Document.Locate
import LiveDoc.Proofs.Entries

/-! # Selected keys

The key that a segment selects fills the slot that the segment names, and depends on the keys of
that slot alone. Selecting with the key itself selects it again.
-/

namespace LiveDoc

theorem isExact_eq_false {segment : String} (h : isExact segment = false) :
    ':' ∉ segment.toList ∧ isMarked segment = false := by
  simpa only [isExact, Bool.or_eq_false_iff, List.contains_eq_mem, decide_eq_false_iff_not] using h

theorem unmark_of_not_marked {key : String} (h : isMarked key = false) : unmark key = key := by
  have hn : unmark? key = none := Option.not_isSome_iff_eq_none.1 (Bool.eq_false_iff.1 h)
  rw [unmark, hn, Option.getD_none]

theorem Text.splitChars_of_not_mem {sep : Char} {cs : List Char} (h : sep ∉ cs) :
    splitChars sep cs = [cs] := by
  induction cs with
  | nil => rfl
  | cons c rest ih =>
    rw [List.mem_cons, not_or] at h
    rw [splitChars, if_neg (Ne.symm h.1), ih h.2]

theorem Text.split_of_not_mem {sep : Char} {s : String} (h : sep ∉ s.toList) :
    split sep s = [s] := by
  rw [split, splitChars_of_not_mem h, List.map_singleton, String.ofList_toList]

/-- A bare segment is the name of its slot. -/
theorem slotName_of_bare {segment : String} (h : isExact segment = false) :
    slotName segment = segment := by
  obtain ⟨hc, hm⟩ := isExact_eq_false h
  have hs := Text.head?_split ':' segment
  rw [Text.split_of_not_mem hc, List.head?_cons, Option.some.injEq] at hs
  rw [slotName, unmark_of_not_marked hm, ← hs]

theorem parse_of_bare {segment : String} (h : isExact segment = false) :
    VariantKey.parse segment = ⟨segment, false, .empty⟩ := by
  obtain ⟨hc, hm⟩ := isExact_eq_false h
  rw [VariantKey.parse, unmark_of_not_marked hm, Text.split_of_not_mem hc, hm]
  rfl

/-! ## Competing variants -/

variable {base : String} {context : Context} {keys : List String}

theorem mem_rankVariants {c : Candidate} : c ∈ rankVariants base context keys ↔
    ∃ key ∈ keys, slotName key = base ∧ Candidate.ofKey context.requested key = c := by
  simp only [rankVariants, List.mem_mergeSort, List.mem_map, List.mem_filter, beq_iff_eq, and_assoc]

theorem resolveVariant_eq_some {key : String} (h : resolveVariant base context keys = some key) :
    key ∈ keys ∧ slotName key = base := by
  have hc : ∃ c ∈ rankVariants base context keys, c.key = key := by
    unfold resolveVariant winner? at h
    split at h
    · cases h
    · next best rest hr =>
      split at h
      · exact ⟨best, by simp [hr], Option.some.inj h⟩
      · obtain ⟨c, hf, hk⟩ := Option.map_eq_some_iff.1 h
        exact ⟨c, List.mem_of_find?_eq_some hf, hk⟩
  obtain ⟨c, hc, rfl⟩ := hc
  obtain ⟨key, hk, hs, rfl⟩ := mem_rankVariants.1 hc
  exact ⟨hk, hs⟩

/-- The plain key stands in when no variant does. -/
theorem isSome_resolveVariant (context : Context) (hb : isExact base = false) (hk : base ∈ keys) :
    (resolveVariant base context keys).isSome := by
  have hc : Candidate.ofKey context.requested base ∈ rankVariants base context keys :=
    mem_rankVariants.2 ⟨base, hk, slotName_of_bare hb, rfl⟩
  unfold resolveVariant winner?
  split
  · next hr => simp [hr] at hc
  · split
    · rfl
    · rw [Option.isSome_map, List.find?_isSome]
      exact ⟨_, hc, by rw [Candidate.ofKey, parse_of_bare hb]; rfl⟩

instance : Std.TransCmp fun a b : Candidate => compare b.score a.score :=
  inferInstanceAs (Std.TransCmp fun a b : Candidate => compareOn Candidate.score b a)

instance : Std.TransCmp Candidate.order :=
  inferInstanceAs (Std.TransCmp (compareLex (fun a b : Candidate => compare b.score a.score)
    (compareLex (compareOn Candidate.extras) (compareOn Candidate.key))))

theorem Candidate.score_le_of_isLE {a b : Candidate} (h : (a.order b).isLE) : b.score ≤ a.score := by
  have hc : (compare b.score a.score).isLE := by
    cases hc : compare b.score a.score with
    | lt => rfl
    | eq => rfl
    | gt => simp [order, hc, Ordering.then] at h
  exact Nat.isLE_compare.1 hc

theorem Candidate.key_eq_of_isLE {a b : Candidate} (h : (a.order b).isLE) (h' : (b.order a).isLE) :
    a.key = b.key := by
  have he : a.order b = .eq := Std.OrientedCmp.isLE_antisymm h h'
  simp only [order, Ordering.then_eq_eq] at he
  exact Std.LawfulEqOrd.eq_of_compare he.2.2

/-- A ranking has the best first. -/
theorem pairwise_rankVariants (base : String) (context : Context) (keys : List String) :
    (rankVariants base context keys).Pairwise fun a b => (a.order b).isLE := by
  apply pairwise_mergeSort_isLE

/-- The first of a ranking comes before all others. -/
theorem order_head_isLE {best : Candidate} {rest : List Candidate}
    (h : rankVariants base context keys = best :: rest) :
    ∀ c ∈ rankVariants base context keys, (best.order c).isLE := by
  have hp := pairwise_rankVariants base context keys
  rw [h, List.pairwise_cons] at hp
  intro c hc
  rw [h] at hc
  rcases List.mem_cons.1 hc with rfl | hc
  · have hself : c.order c = .eq := Std.ReflCmp.compare_self
    rw [hself]
    rfl
  · exact hp.1 c hc

/-- The first of a ranking scores highest. -/
theorem score_le_head {best : Candidate} {rest : List Candidate}
    (h : rankVariants base context keys = best :: rest) :
    ∀ c ∈ rankVariants base context keys, c.score ≤ best.score :=
  fun c hc => Candidate.score_le_of_isLE (order_head_isLE h c hc)

/-- Without a winner nothing scores and no key is plain. -/
theorem resolveVariant_eq_none_iff : resolveVariant base context keys = none ↔
    ∀ c ∈ rankVariants base context keys, c.score = 0 ∧ c.plain = false := by
  unfold resolveVariant winner?
  split
  · next hr => simp [hr]
  · next best rest hr =>
    have hbest : best ∈ rankVariants base context keys := hr ▸ List.mem_cons_self
    split
    · next hs => simp only [reduceCtorEq, false_iff]; exact fun h => by have := (h best hbest).1; omega
    · next hs =>
      simp only [Option.map_eq_none_iff, List.find?_eq_none, Bool.not_eq_true]
      refine forall₂_congr fun c hc => ⟨fun hp => ⟨?_, hp⟩, And.right⟩
      have := score_le_head hr c hc
      omega

/-- A new plain key is reached where no key was. -/
theorem resolveVariant_append_self (hb : isExact base = false)
    (h : resolveVariant base context keys = none) :
    resolveVariant base context (keys ++ [base]) = some base := by
  have hold := resolveVariant_eq_none_iff.1 h
  have hnew : (Candidate.ofKey context.requested base).score = 0 := by
    rw [Candidate.ofKey, parse_of_bare hb]
    rfl
  have hcases {c : Candidate} (hc : c ∈ rankVariants base context (keys ++ [base])) :
      c ∈ rankVariants base context keys ∨ c = Candidate.ofKey context.requested base := by
    obtain ⟨key, hk, hs, rfl⟩ := mem_rankVariants.1 hc
    rcases List.mem_append.1 hk with hk | hk
    · exact .inl (mem_rankVariants.2 ⟨key, hk, hs, rfl⟩)
    · exact .inr (by rw [List.mem_singleton.1 hk])
  have hscore {c : Candidate} (hc : c ∈ rankVariants base context (keys ++ [base])) :
      c.score = 0 := by
    rcases hcases hc with hc | rfl
    · exact (hold c hc).1
    · exact hnew
  have hmem : base ∈ keys ++ [base] := List.mem_append_right keys List.mem_cons_self
  have hsome := isSome_resolveVariant context hb hmem
  unfold resolveVariant winner? at hsome ⊢
  split at hsome
  · cases hsome
  · next best rest hr =>
    have hbest : best.score = 0 := hscore (hr ▸ List.mem_cons_self)
    rw [if_neg (by omega)] at hsome ⊢
    obtain ⟨key, hkey⟩ := Option.isSome_iff_exists.1 hsome
    rw [hkey]
    obtain ⟨c, hf, rfl⟩ := Option.map_eq_some_iff.1 hkey
    have hplain : c.plain = true := List.find?_some hf
    rcases hcases (List.mem_of_find?_eq_some hf) with hc | rfl
    · rw [(hold c hc).2] at hplain
      cases hplain
    · rfl

/-- A new plain key scores nothing, so it is first in no ranking that was won by a score. -/
theorem rankVariants_append_self (hb : isExact base = false) {best : Candidate}
    {rest : List Candidate} (h : rankVariants base context keys = best :: rest)
    (hs : 0 < best.score) : ∃ first rest', rankVariants base context (keys ++ [base]) = first :: rest' ∧
      first.key = best.key ∧ 0 < first.score := by
  have hbest : best ∈ rankVariants base context keys := h ▸ List.mem_cons_self
  have hmem : best ∈ rankVariants base context (keys ++ [base]) := by
    obtain ⟨k, hk, hslot, he⟩ := mem_rankVariants.1 hbest
    exact mem_rankVariants.2 ⟨k, List.mem_append_left _ hk, hslot, he⟩
  have hnew : (Candidate.ofKey context.requested base).score = 0 := by
    rw [Candidate.ofKey, parse_of_bare hb]
    rfl
  cases hr : rankVariants base context (keys ++ [base]) with
  | nil => simp [hr] at hmem
  | cons first rest' =>
    have hscore := score_le_head hr best hmem
    have hfirst : first ∈ rankVariants base context keys := by
      obtain ⟨k, hk, hslot, rfl⟩ := mem_rankVariants.1 (hr ▸ List.mem_cons_self)
      rcases List.mem_append.1 hk with hk | hk
      · exact mem_rankVariants.2 ⟨k, hk, hslot, rfl⟩
      · rw [List.mem_singleton.1 hk, hnew] at hscore
        omega
    exact ⟨first, rest', rfl, Candidate.key_eq_of_isLE (order_head_isLE hr best hmem)
      (order_head_isLE h first hfirst), by omega⟩

/-- Where no variant is plain, a new plain key is reached only if no key was, whatever the
context. -/
theorem resolveVariant_append {context' : Context} (hb : isExact base = false)
    (h : resolveVariant base context' keys = none) :
    resolveVariant base context (keys ++ [base]) =
      (resolveVariant base context keys).or (some base) := by
  cases hr : resolveVariant base context keys with
  | none => exact resolveVariant_append_self hb hr
  | some key =>
    have hplain : ∀ c ∈ rankVariants base context keys, c.plain = false := by
      intro c hc
      obtain ⟨k, hk, hs, rfl⟩ := mem_rankVariants.1 hc
      exact (resolveVariant_eq_none_iff.1 h _ (mem_rankVariants.2 ⟨k, hk, hs, rfl⟩)).2
    unfold resolveVariant winner? at hr ⊢
    cases hold : rankVariants base context keys with
    | nil => simp [hold] at hr
    | cons best rest =>
      have hscore : 0 < best.score := by
        by_contra hn
        rw [hold] at hr
        obtain ⟨c, hf, -⟩ := Option.map_eq_some_iff.1 ((if_neg hn).symm.trans hr)
        have hc := hplain c (hold ▸ List.mem_of_find?_eq_some hf)
        rw [List.find?_some hf] at hc
        cases hc
      obtain ⟨first, rest', hnew, hkey, hpos⟩ := rankVariants_append_self hb hold hscore
      simp only [hold, if_pos hscore, Option.some.injEq] at hr
      simp only [hnew, if_pos hpos, hkey, hr, Option.some_or]

theorem resolveVariant_congr {keys' : List String}
    (h : keys.filter (slotName · == base) = keys'.filter (slotName · == base)) :
    resolveVariant base context keys = resolveVariant base context keys' := by
  rw [resolveVariant, resolveVariant, rankVariants, rankVariants, h]

/-! ## Selection in a mapping -/

variable {members : Members} {segment : String}

theorem selectKey_eq_some {key : String} (h : selectKey members segment context = some key) :
    (members.lookup key).isSome ∧ slotName key = slotName segment := by
  unfold selectKey at h
  split at h
  · split at h
    · next hl =>
      cases h
      exact ⟨hl, rfl⟩
    · cases h
  · next he =>
    obtain ⟨hk, hs⟩ := resolveVariant_eq_some h
    exact ⟨Assoc.isSome_lookup_iff.2 hk, by
      rw [hs, slotName_of_bare (Bool.eq_false_iff.2 he)]⟩

theorem lookup_of_selectKey_eq_none (h : selectKey members segment context = none) :
    members.lookup segment = none := by
  unfold selectKey at h
  split at h
  · split at h
    · cases h
    · next hl => exact Option.not_isSome_iff_eq_none.1 hl
  · next he =>
    refine Assoc.lookup_eq_none_iff.2 fun hk => ?_
    have hs := isSome_resolveVariant context (Bool.eq_false_iff.2 he) hk
    simp [h] at hs

/-- A segment that selects nothing is not among the keys that others select. -/
theorem selectKey_ne {context' : Context} {segment' key : String}
    (h : selectKey members segment context = none)
    (hk : selectKey members segment' context' = some key) : key ≠ segment := by
  rintro rfl
  have hl := (selectKey_eq_some hk).1
  rw [lookup_of_selectKey_eq_none h] at hl
  cases hl

@[simp] theorem selectKey_nil (segment : String) (context : Context) :
    selectKey [] segment context = none :=
  Option.eq_none_iff_forall_ne_some.2 fun _ h => by simpa using (selectKey_eq_some h).1

theorem selectKey_self {key : String} (h : selectKey members segment context = some key) :
    selectKey members key context = some key := by
  obtain ⟨hl, hs⟩ := selectKey_eq_some h
  by_cases he : isExact key
  · rw [selectKey, if_pos he, if_pos hl]
  · have hkey := slotName_of_bare (Bool.eq_false_iff.2 he)
    by_cases hse : isExact segment
    · have hk : segment = key := by
        rw [selectKey, if_pos hse] at h
        split at h
        · exact Option.some.inj h
        · cases h
      exact absurd (hk ▸ hse) he
    · have hseg := slotName_of_bare (Bool.eq_false_iff.2 hse)
      rw [hkey, hseg] at hs
      rw [hs] at h ⊢
      exact h

/-- Selection looks only at the keys of the slot. -/
theorem selectKey_congr {members' : Members}
    (h : (members.map (·.1)).filter (slotName · == slotName segment) =
      (members'.map (·.1)).filter (slotName · == slotName segment)) :
    selectKey members segment context = selectKey members' segment context := by
  unfold selectKey
  split
  · have hmem (ms : Members) : segment ∈ ms.map (·.1) ↔
        segment ∈ (ms.map (·.1)).filter (slotName · == slotName segment) := by
      simp [List.mem_filter]
    have hiff : (members.lookup segment).isSome = (members'.lookup segment).isSome := by
      rw [Bool.eq_iff_iff, Assoc.isSome_lookup_iff, Assoc.isSome_lookup_iff, hmem, hmem members', h]
    rw [hiff]
  · next he =>
    rw [slotName_of_bare (Bool.eq_false_iff.2 he)] at h
    exact resolveVariant_congr h

end LiveDoc

import LiveDoc.Proofs.Selection
import LiveDoc.Proofs.Tables
import Mathlib

/-! # The choice among variants

A key scores what its wanted tags weigh. Where keys score, the best of them is chosen, else the smallest
plain key. The choice depends on which keys there are and not on their order, and keys that are not
chosen can be left out.
-/

namespace LiveDoc

/-- A tag is wanted for its value; a custom tag that stands for itself also by `true`. -/
def Tag.Wanted (requested : Table Dimension String) (t : Tag) : Prop :=
  requested.get? t.dimension = some t.value ∨
    t.dimension = .custom t.value ∧ requested.get? t.dimension = some "true"

instance (requested : Table Dimension String) : DecidablePred (Tag.Wanted requested) :=
  fun _ => inferInstanceAs (Decidable (_ ∨ _))

theorem Tag.matches_iff {t : Tag} {requested : Table Dimension String} :
    t.matches requested ↔ t.Wanted requested := by
  unfold Tag.matches Tag.Wanted Tag.isFlag
  cases requested.get? t.dimension <;> simp

namespace VariantKey

variable (requested : Table Dimension String) (k : VariantKey)

/-- What the wanted tags weigh. -/
def score : Nat :=
  ((k.tags.filter fun t => t.Wanted requested).map (·.dimension.weight)).sum

/-- How many tags are not wanted. -/
def extras : Nat :=
  (k.tags.filter fun t => ¬ t.Wanted requested).length

theorem score_of_isPlain (h : k.isPlain) : k.score requested = 0 := by
  have hnil : k.dimensions.entries = [] := List.isEmpty_iff.1 h
  rw [score, tags, hnil]
  rfl

theorem extras_of_isPlain (h : k.isPlain) : k.extras requested = 0 := by
  have hnil : k.dimensions.entries = [] := List.isEmpty_iff.1 h
  rw [extras, tags, hnil]
  rfl

end VariantKey

/-- One key is better than another or the same. -/
def Precedes (requested : Table Dimension String) (key other : String) : Prop :=
  let k := VariantKey.parse key
  let o := VariantKey.parse other
  o.score requested < k.score requested ∨ o.score requested = k.score requested ∧
    (k.extras requested < o.extras requested ∨
      k.extras requested = o.extras requested ∧ key ≤ other)

namespace Candidate

/-- A key as a candidate. -/
@[simps]
def rated (requested : Table Dimension String) (key : String) : Candidate where
  key := key
  score := (VariantKey.parse key).score requested
  extras := (VariantKey.parse key).extras requested
  plain := (VariantKey.parse key).isPlain

section

variable (requested : Table Dimension String) (key other : String)

theorem ofKey_eq : ofKey requested key = rated requested key := by
  have hhits : (fun t : Tag => t.matches requested) = fun t => decide (t.Wanted requested) := by
    funext t
    rw [← Bool.coe_iff_coe, Tag.matches_iff, decide_eq_true_iff]
  have hothers : not ∘ (fun t : Tag => decide (t.Wanted requested)) =
      fun t => decide (¬ t.Wanted requested) := by
    funext t
    simp
  simp only [ofKey, rated, hhits, List.partition_eq_filter_filter, hothers, VariantKey.score,
    VariantKey.extras, List.sum_eq_foldr, List.foldr_map]

theorem isLE_order_rated :
    ((rated requested key).order (rated requested other)).isLE ↔ Precedes requested key other := by
  simp only [order, rated_key, rated_score, rated_extras, Precedes, Ordering.isLE_then_iff_or,
    Nat.compare_eq_lt, Nat.compare_eq_eq, Std.LawfulBCmp.isLE_iff_le]

end

end Candidate

/-- The keys of a base name. -/
def variantsOf (base : String) (keys : List String) : List String :=
  keys.filter fun key => (VariantKey.parse key).base = base

/-- The key that is documented to serve a context best. -/
inductive Chosen (base : String) (context : Context) (keys : List String) (key : String) : Prop where
  | scoring (mem : key ∈ variantsOf base keys)
      (pos : 0 < (VariantKey.parse key).score context.requested)
      (best : ∀ other ∈ variantsOf base keys, Precedes context.requested key other)
  | standing (mem : key ∈ variantsOf base keys)
      (nothing : ∀ other ∈ variantsOf base keys,
        (VariantKey.parse other).score context.requested = 0)
      (plain : (VariantKey.parse key).isPlain)
      (least : ∀ other ∈ variantsOf base keys, (VariantKey.parse other).isPlain → key ≤ other)

variable {base : String} {context : Context} {keys keys' : List String} {key key' : String}

theorem mem_variantsOf : key ∈ variantsOf base keys ↔ key ∈ keys ∧ slotName key = base := by
  simp only [variantsOf, VariantKey.base_parse, List.mem_filter, decide_eq_true_iff]

theorem mem_rankVariants_iff {c : Candidate} : c ∈ rankVariants base context keys ↔
    ∃ key ∈ variantsOf base keys, Candidate.rated context.requested key = c := by
  simp only [mem_rankVariants, mem_variantsOf, Candidate.ofKey_eq, and_assoc]

/-! ## The ranking -/

theorem rankVariants_perm_rated (base : String) (context : Context) (keys : List String) :
    (rankVariants base context keys).Perm
      ((variantsOf base keys).map (Candidate.rated context.requested)) := by
  have hkeys : keys.filter (slotName · == base) = variantsOf base keys := by
    simp only [variantsOf, VariantKey.base_parse, beq_eq_decide]
  have hrated : Candidate.ofKey context.requested = Candidate.rated context.requested :=
    funext (Candidate.ofKey_eq _)
  rw [rankVariants, hkeys, hrated]
  apply List.mergeSort_perm

theorem pairwise_precedes (base : String) (context : Context) (keys : List String) :
    (rankVariants base context keys).Pairwise fun a b => Precedes context.requested a.key b.key := by
  apply (pairwise_rankVariants base context keys).imp_of_mem
  intro a b ha hb hle
  obtain ⟨key, -, rfl⟩ := mem_rankVariants_iff.1 ha
  obtain ⟨other, -, rfl⟩ := mem_rankVariants_iff.1 hb
  exact (Candidate.isLE_order_rated _ key other).1 hle

/-- Candidates that tie are equal, so that there is one order for them. -/
theorem rankVariants_eq_of_perm (h : keys.Perm keys') :
    rankVariants base context keys = rankVariants base context keys' := by
  have hperm : (rankVariants base context keys).Perm (rankVariants base context keys') := by
    apply (rankVariants_perm_rated base context keys).trans
    apply ((h.filter _).map _).trans
    exact (rankVariants_perm_rated base context keys').symm
  apply hperm.eq_of_pairwise _ (pairwise_rankVariants base context keys)
    (pairwise_rankVariants base context keys')
  intro a b ha hb hab hba
  obtain ⟨key, -, rfl⟩ := mem_rankVariants_iff.1 ha
  obtain ⟨other, -, rfl⟩ := mem_rankVariants_iff.1 hb
  have hkey : key = other := Candidate.key_eq_of_isLE hab hba
  rw [hkey]

/-! ## The choice -/

theorem Precedes.antisymm {requested : Table Dimension String} (h : Precedes requested key key')
    (h' : Precedes requested key' key) : key = key' :=
  Candidate.key_eq_of_isLE ((Candidate.isLE_order_rated _ key key').2 h)
    ((Candidate.isLE_order_rated _ key' key).2 h')

/-- Of plain keys that one is better which is smaller. -/
theorem Precedes.le_of_isPlain {requested : Table Dimension String} (h : Precedes requested key key')
    (hp : (VariantKey.parse key).isPlain) (hp' : (VariantKey.parse key').isPlain) : key ≤ key' := by
  simp only [Precedes] at h
  rw [VariantKey.score_of_isPlain _ _ hp, VariantKey.score_of_isPlain _ _ hp',
    VariantKey.extras_of_isPlain _ _ hp, VariantKey.extras_of_isPlain _ _ hp'] at h
  simpa using h

theorem Chosen.unique (h : Chosen base context keys key) (h' : Chosen base context keys key') :
    key = key' := by
  cases h with
  | scoring mem pos best =>
    cases h' with
    | scoring mem' pos' best' => exact (best key' mem').antisymm (best' key mem)
    | standing mem' nothing' plain' least' =>
      rw [nothing' key mem] at pos
      cases pos
  | standing mem nothing plain least =>
    cases h' with
    | scoring mem' pos' best' =>
      rw [nothing key' mem'] at pos'
      cases pos'
    | standing mem' nothing' plain' least' =>
      exact le_antisymm (least key' mem' plain') (least' key mem plain)

/-- The first plain candidate of a ranking has the smallest of the plain keys. -/
theorem le_of_find?_eq_some {c : Candidate}
    (h : (rankVariants base context keys).find? (·.plain) = some c) {other : String}
    (ho : other ∈ variantsOf base keys) (hp : (VariantKey.parse other).isPlain) : c.key ≤ other := by
  have hmem : Candidate.rated context.requested other ∈ rankVariants base context keys :=
    mem_rankVariants_iff.2 ⟨other, ho, rfl⟩
  obtain ⟨key, -, rfl⟩ := mem_rankVariants_iff.1 (List.mem_of_find?_eq_some h)
  obtain ⟨hc, front, back, hr, hfront⟩ := List.find?_eq_some_iff_append.1 h
  rw [hr] at hmem
  rcases List.mem_append.1 hmem with hmem | hmem
  · have hnot := hfront _ hmem
    rw [Candidate.rated_plain, hp] at hnot
    cases hnot
  · rcases List.mem_cons.1 hmem with he | hmem
    · exact le_of_eq (congrArg Candidate.key he).symm
    · have hpairs := pairwise_precedes base context keys
      rw [hr, List.pairwise_append, List.pairwise_cons] at hpairs
      exact (hpairs.2.1.1 _ hmem).le_of_isPlain hc hp

theorem chosen_of_resolveVariant (h : resolveVariant base context keys = some key) :
    Chosen base context keys key := by
  unfold resolveVariant winner? at h
  split at h
  · cases h
  · next best rest hr =>
    have hbest : best ∈ rankVariants base context keys := hr ▸ List.mem_cons_self
    obtain ⟨first, hfirst, rfl⟩ := mem_rankVariants_iff.1 hbest
    rw [Candidate.rated_score, Candidate.rated_key] at h
    split at h
    · next hs =>
      obtain rfl := Option.some.inj h
      apply Chosen.scoring hfirst hs
      intro other ho
      apply (Candidate.isLE_order_rated _ first other).1
      exact order_head_isLE hr _ (mem_rankVariants_iff.2 ⟨other, ho, rfl⟩)
    · next hs =>
      obtain ⟨c, hf, rfl⟩ := Option.map_eq_some_iff.1 h
      obtain ⟨key, hk, rfl⟩ := mem_rankVariants_iff.1 (List.mem_of_find?_eq_some hf)
      have hplain : (VariantKey.parse key).isPlain := List.find?_some (p := Candidate.plain) hf
      refine Chosen.standing hk ?_ hplain ?_
      · intro other ho
        have hle := score_le_head hr _ (mem_rankVariants_iff.2 ⟨other, ho, rfl⟩)
        rw [Candidate.rated_score, Candidate.rated_score] at hle
        exact Nat.eq_zero_of_le_zero (hle.trans (Nat.le_of_not_lt hs))
      · intro other ho hp
        exact le_of_find?_eq_some hf ho hp

theorem resolveVariant_eq_none_iff_variantsOf : resolveVariant base context keys = none ↔
    ∀ key ∈ variantsOf base keys, (VariantKey.parse key).score context.requested = 0 ∧
      (VariantKey.parse key).isPlain = false := by
  simp only [resolveVariant_eq_none_iff, mem_rankVariants_iff, forall_exists_index, and_imp,
    forall_apply_eq_imp_iff₂, Candidate.rated_score, Candidate.rated_plain]

theorem resolveVariant_eq_some_iff : resolveVariant base context keys = some key ↔
    Chosen base context keys key := by
  constructor
  · exact chosen_of_resolveVariant
  · intro h
    cases hr : resolveVariant base context keys with
    | some key' => rw [(chosen_of_resolveVariant hr).unique h]
    | none =>
      have hnone := resolveVariant_eq_none_iff_variantsOf.1 hr
      cases h with
      | scoring mem pos best =>
        rw [(hnone key mem).1] at pos
        cases pos
      | standing mem nothing plain least =>
        rw [(hnone key mem).2] at plain
        cases plain

/-- What is chosen among keys is chosen among fewer of them if it is one of these. -/
theorem Chosen.of_subset {kept : List String} (h : Chosen base context keys key)
    (hkept : kept ⊆ keys) (hkey : key ∈ kept) : Chosen base context kept key := by
  have hsub {other : String} (ho : other ∈ variantsOf base kept) : other ∈ variantsOf base keys := by
    obtain ⟨hmem, hbase⟩ := mem_variantsOf.1 ho
    exact mem_variantsOf.2 ⟨hkept hmem, hbase⟩
  have hself (hm : key ∈ variantsOf base keys) : key ∈ variantsOf base kept :=
    mem_variantsOf.2 ⟨hkey, (mem_variantsOf.1 hm).2⟩
  cases h with
  | scoring mem pos best =>
    apply Chosen.scoring (hself mem) pos
    intro other ho
    exact best other (hsub ho)
  | standing mem nothing plain least =>
    refine Chosen.standing (hself mem) ?_ plain ?_
    · intro other ho
      exact nothing other (hsub ho)
    · intro other ho
      exact least other (hsub ho)

theorem resolveVariant_of_subset {kept : List String} (hkept : kept ⊆ keys)
    (hwinner : ∀ key, resolveVariant base context keys = some key → key ∈ kept) :
    resolveVariant base context kept = resolveVariant base context keys := by
  cases hr : resolveVariant base context keys with
  | none =>
    rw [resolveVariant_eq_none_iff_variantsOf] at hr ⊢
    intro key hk
    obtain ⟨hmem, hbase⟩ := mem_variantsOf.1 hk
    exact hr key (mem_variantsOf.2 ⟨hkept hmem, hbase⟩)
  | some key =>
    rw [resolveVariant_eq_some_iff]
    exact (chosen_of_resolveVariant hr).of_subset hkept (hwinner key hr)

/-- The ranking of keys is the same in whatever order they come: the keys of the base name, each with what
it scores and how many of its tags are not wanted, the best first. The key that is resolved is the one
documented to serve best, none is if nothing scores and no key is plain, and leaving out others does not
change it. -/
theorem variants_ranked_and_chosen (base : String) (context : Context) {keys keys' : List String}
    (h : keys.Perm keys') :
    rankVariants base context keys' = rankVariants base context keys ∧
    (rankVariants base context keys).Perm
      ((variantsOf base keys).map (Candidate.rated context.requested)) ∧
    (rankVariants base context keys).Pairwise
      (fun a b => Precedes context.requested a.key b.key) ∧
    (∀ key, resolveVariant base context keys = some key ↔ Chosen base context keys key) ∧
    (resolveVariant base context keys = none ↔ ∀ key ∈ variantsOf base keys,
      (VariantKey.parse key).score context.requested = 0 ∧
        (VariantKey.parse key).isPlain = false) ∧
    ∀ kept, kept ⊆ keys →
      (∀ key, resolveVariant base context keys = some key → key ∈ kept) →
      resolveVariant base context kept = resolveVariant base context keys := by
  refine ⟨(rankVariants_eq_of_perm h).symm, rankVariants_perm_rated base context keys,
    pairwise_precedes base context keys, ?_, resolveVariant_eq_none_iff_variantsOf, ?_⟩
  · intro key
    exact resolveVariant_eq_some_iff
  · intro kept hkept hwinner
    exact resolveVariant_of_subset hkept hwinner

/-- The Spanish key is chosen in either order, and without the key that it beats by fewer tags. -/
theorem spanish_variant_chosen :
    let context : Context := .single "lang" "es"
    let keys := ["t", "t:es:formal", ".t:es", "t:f", "u:es"]
    let kept := ["t", ".t:es", "u:es"]
    keys.Perm keys.reverse ∧ kept ⊆ keys ∧
      rankVariants "t" context keys.reverse = rankVariants "t" context keys ∧
      Chosen "t" context keys ".t:es" ∧
      (∀ key, resolveVariant "t" context keys = some key → key ∈ kept) ∧
      resolveVariant "t" context kept = some ".t:es" := by
  intro context keys kept
  have hperm : keys.Perm keys.reverse := keys.reverse_perm.symm
  have hkept : kept ⊆ keys := by decide
  have hwinner : resolveVariant "t" context keys = some ".t:es" := by cbv
  obtain ⟨hsame, -, -, hchosen, -, hleft⟩ := variants_ranked_and_chosen "t" context hperm
  have hmem : ∀ key, resolveVariant "t" context keys = some key → key ∈ kept := by
    intro key hkey
    obtain rfl := Option.some.inj (hwinner.symm.trans hkey)
    decide
  refine ⟨hperm, hkept, hsame, (hchosen _).1 hwinner, hmem, ?_⟩
  rw [hleft kept hkept hmem, hwinner]

end LiveDoc

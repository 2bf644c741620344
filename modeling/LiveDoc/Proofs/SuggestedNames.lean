import LiveDoc.Proofs.EditDistance
import LiveDoc.Proofs.Moments
import LiveDoc.Proofs.Tables
import Mathlib

/-! # Suggested names

A call of an unknown name fails with the callable names nearest to it. They are sorted before they are cut
off, so none that stays out would come before one that is listed. A resolver that shares the name of a
built-in function makes this name callable twice, and then it is also suggested twice.
-/

namespace LiveDoc

variable {σ : Type} {name a b : String} {registry : Registry σ}

/-! ## The order of suggestions -/

/-- A text is nearer to a name than another, or as near and not after it. -/
def Nearer (name a b : String) : Prop :=
  Text.distance name a < Text.distance name b ∨ Text.distance name a = Text.distance name b ∧ a ≤ b

theorem Nearer.antisymm (h : Nearer name a b) (h' : Nearer name b a) : a = b := by
  rcases h with h | ⟨hd, h⟩
  · rcases h' with h' | ⟨hd', -⟩ <;> omega
  · rcases h' with h' | ⟨-, h'⟩
    · omega
    · exact le_antisymm h h'

/-- How texts with their distances are sorted. -/
def byDistance (a b : Nat × String) : Ordering :=
  (compare a.1 b.1).then (compare a.2 b.2)

instance : Std.TransCmp byDistance :=
  inferInstanceAs (Std.TransCmp (compareLex (compareOn Prod.fst) (compareOn Prod.snd)))

theorem isLE_byDistance_iff :
    (byDistance (Text.distance name a, a) (Text.distance name b, b)).isLE ↔ Nearer name a b := by
  simp only [byDistance, Nearer, Ordering.isLE_then_iff_or, Nat.compare_eq_lt, Nat.compare_eq_eq,
    Std.LawfulBCmp.isLE_iff_le]

/-- Whether a text lies near an unknown name. -/
def isNear (name c : String) : Bool :=
  0 < Text.distance name c && Text.distance name c ≤ suggestionReach name

/-- A text with its distance from a name. -/
def rate (name c : String) : Nat × String :=
  (Text.distance name c, c)

/-- The near names with their distances, in order. -/
def ranked (name : String) (available : List String) : List (Nat × String) :=
  ((available.filter (isNear name)).map (rate name)).mergeSort fun a b => (byDistance a b).isLE

theorem ranked_perm (name : String) (available : List String) :
    (ranked name available).Perm ((available.filter (isNear name)).map (rate name)) :=
  List.mergeSort_perm _ _

/-- The near names in order. -/
def ranking (name : String) (available : List String) : List String :=
  (ranked name available).map (·.2)

theorem ranking_perm (name : String) (available : List String) :
    (ranking name available).Perm (available.filter (isNear name)) := by
  have hnames := (ranked_perm name available).map (·.2)
  rwa [List.map_map, show (·.2) ∘ rate name = id from rfl, List.map_id] at hnames

theorem pairwise_ranking (name : String) (available : List String) :
    (ranking name available).Pairwise (Nearer name) := by
  rw [ranking, List.pairwise_map]
  apply (pairwise_mergeSort_isLE _).imp_of_mem
  intro p q hp hq hle
  obtain ⟨a, -, rfl⟩ := List.mem_map.1 ((ranked_perm name available).mem_iff.1 hp)
  obtain ⟨b, -, rfl⟩ := List.mem_map.1 ((ranked_perm name available).mem_iff.1 hq)
  exact isLE_byDistance_iff.1 hle

theorem suggestions_eq_take (name : String) (available : List String) :
    suggestions name available = (ranking name available).take 3 := by
  rw [suggestions, List.filter_map, ranking, ranked, ← List.map_take]
  rfl

/-- A copy of the first name comes next. -/
theorem mem_take_succ_iff {names : List String} (h : (a :: names).Pairwise (Nearer name)) (k : Nat) :
    a ∈ names.take (k + 1) ↔ a ∈ names := by
  obtain ⟨hfirst, hrest⟩ := List.pairwise_cons.1 h
  constructor
  · exact List.mem_of_mem_take
  · intro ha
    cases names with
    | nil => cases ha
    | cons b more =>
      have hab : a = b := by
        rcases List.mem_cons.1 ha with hab | ha
        · exact hab
        · exact (hfirst b List.mem_cons_self).antisymm ((List.pairwise_cons.1 hrest).1 a ha)
      simp [hab]

/-- Copies stand side by side in a ranking: where it is cut off, none is twice exactly if none but the last
is twice in all. -/
theorem nodup_take_succ_iff {names : List String} (h : names.Pairwise (Nearer name)) (k : Nat) :
    (names.take (k + 1)).Nodup ↔ ∀ s ∈ names.take k, names.count s ≤ 1 := by
  induction k generalizing names with
  | zero => cases names <;> simp
  | succ k ih =>
    cases names with
    | nil => simp
    | cons a rest =>
      rw [List.take_succ_cons, List.nodup_cons, ih (List.pairwise_cons.1 h).2, mem_take_succ_iff h,
        List.take_succ_cons, List.forall_mem_cons, List.count_cons_self]
      constructor
      · rintro ⟨ha, hcount⟩
        refine ⟨by rw [List.count_eq_zero_of_not_mem ha], ?_⟩
        intro s hs
        have hne : a ≠ s := fun has => ha (has ▸ List.mem_of_mem_take hs)
        rw [List.count_cons_of_ne hne]
        exact hcount s hs
      · rintro ⟨ha, hcount⟩
        constructor
        · intro hmem
          have hpos := List.count_pos_iff.2 hmem
          omega
        · intro s hs
          exact List.count_le_count_cons.trans (hcount s hs)

/-! ## Callable names -/

/-- The names that calls may use with the resolvers of a registry. -/
def Callable (registry : Registry σ) (s : String) : Prop :=
  s ∈ Builtin.names ∨ (registry.get? s).isSome

theorem mem_registeredNames {s : String} : s ∈ Registry.names registry ↔ (registry.get? s).isSome := by
  simp [Registry.names, Option.isSome_iff_exists, Table.get?_eq_some_iff]

theorem nodup_builtinNames : Builtin.names.Nodup := by
  decide

/-- A callable name is there twice if a resolver shares it with a built-in function. -/
theorem count_callable_le_one_iff {s : String} :
    (Registry.names registry ++ Builtin.names).count s ≤ 1 ↔
      ¬ (s ∈ Builtin.names ∧ (registry.get? s).isSome) := by
  have hregistered : (Registry.names registry).count s ≤ 1 :=
    List.nodup_iff_count_le_one.1 registry.nodup_keys s
  have hbuiltin : Builtin.names.count s ≤ 1 := List.nodup_iff_count_le_one.1 nodup_builtinNames s
  rw [List.count_append, ← mem_registeredNames, ← List.count_pos_iff, ← List.count_pos_iff]
  omega

/-- What is suggested for an unknown name: callable names within reach, three at most, in order, and without
leaving out one that would come before. -/
structure Suggests (registry : Registry σ) (name : String) (reach : Nat) (suggested : List String) :
    Prop where
  callable : ∀ s ∈ suggested, Callable registry s
  near : ∀ s ∈ suggested, Text.distance name s ≤ reach
  atMost : suggested.length ≤ 3
  ordered : suggested.Pairwise (Nearer name)
  complete : ∀ c, Callable registry c → Text.distance name c ≤ reach →
    c ∈ suggested ∨ suggested.length = 3 ∧ ∀ s ∈ suggested, Nearer name s c

theorem Suggests.iff_of_le {reach reach' : Nat} {suggested : List String}
    (h : Suggests registry name reach suggested) (hle : reach' ≤ reach) :
    Suggests registry name reach' suggested ↔ ∀ s ∈ suggested, Text.distance name s ≤ reach' := by
  constructor
  · exact Suggests.near
  · intro hnear
    exact ⟨h.callable, hnear, h.atMost, h.ordered, fun c hc hd => h.complete c hc (hd.trans hle)⟩

/-- The names that are suggested for an unknown one. -/
def suggestedFor (registry : Registry σ) (name : String) : List String :=
  suggestions name (Registry.names registry ++ Builtin.names)

theorem mem_ranking_callable {c : String} :
    c ∈ ranking name (Registry.names registry ++ Builtin.names) ↔
      Callable registry c ∧ isNear name c := by
  rw [(ranking_perm _ _).mem_iff, List.mem_filter, List.mem_append, mem_registeredNames, Callable,
    or_comm (a := c ∈ Builtin.names)]

theorem isNear_of_callable {c : String} (h : ¬ Callable registry name) (hc : Callable registry c) :
    isNear name c ↔ Text.distance name c ≤ suggestionReach name := by
  have hne : Text.distance name c ≠ 0 := by
    intro hzero
    rw [Text.distance_eq_zero_iff] at hzero
    exact h (hzero ▸ hc)
  simp only [isNear, Bool.and_eq_true, decide_eq_true_iff, Nat.pos_of_ne_zero hne, true_and]

theorem suggests_suggestedFor (h : ¬ Callable registry name) :
    Suggests registry name (suggestionReach name) (suggestedFor registry name) := by
  have hpairs := pairwise_ranking name (Registry.names registry ++ Builtin.names)
  have hmem {s : String} (hs : s ∈ suggestedFor registry name) :
      Callable registry s ∧ isNear name s := by
    rw [suggestedFor, suggestions_eq_take] at hs
    exact mem_ranking_callable.1 (List.mem_of_mem_take hs)
  constructor
  · intro s hs
    exact (hmem hs).1
  · intro s hs
    exact (isNear_of_callable h (hmem hs).1).1 (hmem hs).2
  · rw [suggestedFor, suggestions_eq_take]
    exact List.length_take_le 3 _
  · rw [suggestedFor, suggestions_eq_take]
    exact hpairs.sublist (List.take_sublist 3 _)
  · intro c hc hd
    have hranked := mem_ranking_callable.2 ⟨hc, (isNear_of_callable h hc).2 hd⟩
    rw [suggestedFor, suggestions_eq_take]
    rw [← List.take_append_drop 3 (ranking name _), List.pairwise_append] at hpairs
    rw [← List.take_append_drop 3 (ranking name _), List.mem_append] at hranked
    rcases hranked with hlisted | hout
    · exact .inl hlisted
    · -- What is cut off stands behind all that is kept, and then three are kept.
      refine .inr ⟨?_, fun s hs => hpairs.2.2 s hs c hout⟩
      have hlength := List.length_pos_of_mem hout
      rw [List.length_drop] at hlength
      rw [List.length_take]
      omega

theorem nodup_suggestedFor_iff : (suggestedFor registry name).Nodup ↔
    ∀ s ∈ (suggestedFor registry name).take 2, ¬ (s ∈ Builtin.names ∧ (registry.get? s).isSome) := by
  have hpairs := pairwise_ranking name (Registry.names registry ++ Builtin.names)
  rw [suggestedFor, suggestions_eq_take, nodup_take_succ_iff hpairs 2, List.take_take]
  apply forall₂_congr
  intro s hs
  have hnear := (mem_ranking_callable.1 (List.mem_of_mem_take hs)).2
  rw [(ranking_perm _ _).count_eq, List.count_filter hnear, count_callable_le_one_iff]

/-! ## Calls of unknown names -/

theorem length_le_utf8Len (cs : List Char) : cs.length ≤ String.utf8Len cs := by
  induction cs with
  | nil => simp
  | cons c cs ih =>
    have hc := c.utf8Size_pos
    rw [List.length_cons, String.utf8Len_cons]
    omega

theorem length_le_utf8ByteSize (s : String) : s.length ≤ s.utf8ByteSize := by
  rw [← String.ofList_toList (s := s), String.length_ofList, String.utf8ByteSize_ofList]
  exact length_le_utf8Len s.toList

/-- The reach of a name with as many characters. -/
def promisedReach (name : String) : Nat :=
  if name.length ≤ 3 then 1 else 2

/-- A name has at least as many bytes as characters, so it never gets less reach than promised. -/
theorem promisedReach_le (name : String) : promisedReach name ≤ suggestionReach name := by
  have hlength := length_le_utf8ByteSize name
  unfold promisedReach suggestionReach
  split <;> split <;> omega

theorem Builtin.ofName?_eq_none (h : name ∉ Builtin.names) : Builtin.ofName? name = none := by
  rw [Builtin.ofName?, List.find?_eq_none]
  intro b hb he
  rw [beq_iff_eq] at he
  exact h (List.mem_append_left _ (he ▸ List.mem_map_of_mem hb))

theorem Request.follow_callNamed_of_unknown (request : Request σ) (evaluate : Request.Evaluator σ)
    (here : Query.Standpoint) (args : List Value) (stack : Stack) (w : World σ)
    (hb : name ∉ Builtin.names) (hr : request.options.registry.get? name = none) :
    request.follow evaluate (Plan.answer (Query.callNamed here name args)) stack w =
      .done (.error (.new (.unknownResolver name (suggestedFor request.options.registry name))), stack)
        w := by
  have hcall : request.call name args stack w =
      .done (.error (.new (.unknownResolver name (suggestedFor request.options.registry name))), stack)
        w := by
    rw [Request.call, hr]
    rfl
  rw [Query.callNamed, Builtin.ofName?_eq_none hb]
  simp only [Plan.answer]
  rw [follow_call]
  show (request.call name args stack w).bind _ = _
  rw [hcall]
  rfl

/-- A call of a name that is neither built in nor registered fails with the callable names nearest to it in
edits, three at most. None is there twice unless it is built in and registered and among the first two, and
names that are short in characters but long in bytes are given the reach of long ones. -/
theorem unknown_call_suggests (request : Request σ) (evaluate : Request.Evaluator σ)
    (here : Query.Standpoint) (args : List Value) (stack : Stack) (w : World σ)
    (hb : name ∉ Builtin.names) (hr : request.options.registry.get? name = none) :
    ∃ suggested, request.follow evaluate (Plan.answer (Query.callNamed here name args)) stack w =
        .done (.error (.new (.unknownResolver name suggested)), stack) w ∧
      (∀ s, IsLeast {n | Text.Edited n name.toList s.toList} (Text.distance name s)) ∧
      Suggests request.options.registry name (suggestionReach name) suggested ∧
      (suggested.Nodup ↔ ∀ s ∈ suggested.take 2,
        ¬ (s ∈ Builtin.names ∧ (request.options.registry.get? s).isSome)) ∧
      (Suggests request.options.registry name (promisedReach name) suggested ↔
        ∀ s ∈ suggested, Text.distance name s ≤ promisedReach name) := by
  have hunknown : ¬ Callable request.options.registry name := by
    rintro (h | h)
    · exact hb h
    · rw [hr] at h
      cases h
  have hsuggests := suggests_suggestedFor hunknown
  refine ⟨suggestedFor request.options.registry name, ?_, ?_, hsuggests, nodup_suggestedFor_iff, ?_⟩
  · exact request.follow_callNamed_of_unknown evaluate here args stack w hb hr
  · intro s
    exact Text.isLeast_distance name s
  · exact hsuggests.iff_of_le (promisedReach_le name)

/-- A resolver that shares the name of a built-in function. -/
def sharing : Request Unit where
  options := { (Options.default : Options Unit) with
    registry := .ofList [("upper", ⟨fun _ _ host => (some (.ok .null), host)⟩)] }
  context := .empty
  fallback := none

def inSharing : World Unit :=
  ⟨.obj [], .empty, .empty, [], ()⟩

theorem suggestedFor_uper : suggestedFor sharing.options.registry "uper" = ["upper", "upper"] := by
  cbv

/-- The built-in function and the resolver are both suggested for a name one edit away from theirs. -/
theorem uper_suggests_upper :
    "uper" ∉ Builtin.names ∧ sharing.options.registry.get? "uper" = none ∧
      Suggests sharing.options.registry "uper" (promisedReach "uper") ["upper", "upper"] ∧
      ∃ s ∈ ["upper", "upper"], s ∈ Builtin.names ∧ (sharing.options.registry.get? s).isSome := by
  have hb : "uper" ∉ Builtin.names := by decide
  have hr : sharing.options.registry.get? "uper" = none := by cbv
  obtain ⟨suggested, hrun, -, -, hnodup, hkept⟩ :=
    unknown_call_suggests sharing (sharing.evaluate 0) ⟨⟨[]⟩, .empty⟩ [] [] inSharing hb hr
  have hupper := sharing.follow_callNamed_of_unknown (sharing.evaluate 0) ⟨⟨[]⟩, .empty⟩ [] []
    inSharing hb hr
  rw [hrun, suggestedFor_uper] at hupper
  cases hupper
  refine ⟨hb, hr, hkept.2 ?_, ?_⟩
  · have hdistance : Text.distance "uper" "upper" = 1 := by cbv
    have hreach : promisedReach "uper" = 2 := by cbv
    simp [hdistance, hreach]
  · have htwice : ¬ ["upper", "upper"].Nodup := by decide
    rw [hnodup, show ["upper", "upper"].take 2 = ["upper", "upper"] from rfl] at htwice
    simpa only [not_forall, not_not, exists_prop] using htwice

/-- A name is suggested twice, and one of three letters is answered with a name two edits away. -/
theorem suggested_twice_or_far :
    sharing.follow (sharing.evaluate 0) (Plan.answer (Query.callNamed ⟨⟨[]⟩, .empty⟩ "uper" [])) []
        inSharing =
          .done (.error (.new (.unknownResolver "uper" ["upper", "upper"])), []) inSharing ∧
      sharing.follow (sharing.evaluate 0) (Plan.answer (Query.callNamed ⟨⟨[]⟩, .empty⟩ "éér" [])) []
        inSharing = .done (.error (.new (.unknownResolver "éér" ["str"])), []) inSharing ∧
      "éér".length = 3 ∧ IsLeast {n | Text.Edited n "éér".toList "str".toList} 2 := by
  have hstr : suggestedFor sharing.options.registry "éér" = ["str"] := by cbv
  have hdistance : Text.distance "éér" "str" = 2 := by cbv
  refine ⟨?_, ?_, rfl, hdistance ▸ Text.isLeast_distance "éér" "str"⟩
  · rw [Request.follow_callNamed_of_unknown _ _ _ _ _ _ (by decide) (by cbv), suggestedFor_uper]
  · rw [Request.follow_callNamed_of_unknown _ _ _ _ _ _ (by decide) (by cbv), hstr]

end LiveDoc

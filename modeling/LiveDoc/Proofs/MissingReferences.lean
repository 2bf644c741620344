import LiveDoc.Proofs.Memoization
import LiveDoc.Proofs.Moments
import LiveDoc.Proofs.ReferenceQueries

/-! # References that name no value

A path without a value is lost at one of its segments: what lies before it can be followed, in the
document and then in the result of the first expression that is met. A reference to such a path is
`null` if an array is indexed where it is lost, and is not found if not.
-/

namespace LiveDoc

variable {σ α β : Type}

/-! ## Where a path is lost -/

namespace Located

/-- The value that a walk has led to; `result` is that of the expression if the walk met one. -/
def value? (result : Value) : Located → Option Value
  | .missing => none
  | .static _ value _ => some value
  | .expression site => result.descend? site.rest

variable {l : Located} {result : Value} {items : List Value}

theorem value?_further_of_none (h : l.value? result = none) (more : List String) :
    (l.further more).value? result = none := by
  cases l with
  | missing => rfl
  | static => cases h
  | expression site =>
    have hsite : result.descend? site.rest = none := h
    show result.descend? (site.rest ++ more) = none
    rw [Value.descend?_append, hsite, Option.bind_none]

/-- From an array one gets to its items only. -/
theorem value?_further_item (h : l.value? result = some (.arr items)) (segment : String) :
    (l.further [segment]).value? result = (Numeral.index? segment).bind (items[·]?) := by
  cases l with
  | missing => cases h
  | static path value context =>
    obtain rfl : value = .arr items := Option.some.inj h
    show (walk (.arr items) path context [segment]).value? result = Value.child? (.arr items) segment
    cases hc : Value.child? (.arr items) segment with
    | none => rw [walk_cons_none (by simp [enter?, hc])]; rfl
    | some v =>
      obtain ⟨i, hi, -⟩ := Option.bind_eq_some_iff.1 hc
      have hplain : isExpression segment v = false :=
        isExpression_of_not_marked (isExact_eq_false (isExact_of_index? hi)).2 v
      rw [walk_cons_static (by simp [enter?, hc]) hplain]
      rfl
  | expression site =>
    have hsite : result.descend? site.rest = some (.arr items) := h
    show result.descend? (site.rest ++ [segment]) = Value.child? (.arr items) segment
    rw [Value.descend?_append, hsite, Option.bind_some, Value.descend?]
    cases Value.child? (.arr items) segment <;> rfl

end Located

section Lost

variable (document : Value) (context : Context) (result : Value) (path : Path)

/-- The value that a path leads to in a document and then in the result of the first expression that
it meets. -/
def valueAt? : Option Value :=
  (locate document path context).value? result

/-- The path can be followed up to a segment and no further. -/
structure LostAt (place : Nat) (segment : String) (held : Value) : Prop where
  segment_eq : path.segments[place]? = some segment
  held_eq : valueAt? document context result (path.take place) = some held
  gone : valueAt? document context result (path.take (place + 1)) = none

variable {document context result path}

theorem take_append_drop (path : Path) (n : Nat) :
    (path.take n).append (path.segments.drop n) = path := by
  simp [Path.append, Path.take]

theorem take_take {n m : Nat} (h : n ≤ m) : (path.take m).take n = path.take n := by
  simp [Path.take, List.take_take, Nat.min_eq_left h]

theorem valueAt?_of_take {n : Nat} (h : valueAt? document context result (path.take n) = none) :
    valueAt? document context result path = none := by
  rw [← take_append_drop path n, valueAt?, locate_append]
  exact Located.value?_further_of_none h _

theorem valueAt?_take_le {n m : Nat} (hnm : n ≤ m)
    (h : valueAt? document context result (path.take n) = none) :
    valueAt? document context result (path.take m) = none := by
  rw [← take_take hnm] at h
  exact valueAt?_of_take h

theorem take_succ {n : Nat} {segment : String} (h : path.segments[n]? = some segment) :
    path.take (n + 1) = (path.take n).append [segment] := by
  simp [Path.take, Path.append, List.take_add_one, h]

theorem valueAt?_item {place : Nat} {segment : String} {items : List Value}
    (hs : path.segments[place]? = some segment)
    (h : valueAt? document context result (path.take place) = some (.arr items)) :
    valueAt? document context result (path.take (place + 1)) =
      (Numeral.index? segment).bind (items[·]?) := by
  rw [take_succ hs, valueAt?, locate_append]
  exact Located.value?_further_item h segment

namespace LostAt

variable {place place' : Nat} {segment segment' : String} {held held' : Value}

/-- A path is lost once. -/
theorem unique (h : LostAt document context result path place segment held)
    (h' : LostAt document context result path place' segment' held') :
    place = place' ∧ segment = segment' ∧ held = held' := by
  have hle {n m : Nat} {v : Value} (hgone : valueAt? document context result (path.take (n + 1)) = none)
      (hheld : valueAt? document context result (path.take m) = some v) : m ≤ n := by
    by_contra hnm
    rw [valueAt?_take_le (Nat.lt_of_not_le hnm) hgone] at hheld
    cases hheld
  obtain rfl := Nat.le_antisymm (hle h'.gone h.held_eq) (hle h.gone h'.held_eq)
  exact ⟨rfl, Option.some.inj (h.segment_eq.symm.trans h'.segment_eq),
    Option.some.inj (h.held_eq.symm.trans h'.held_eq)⟩

/-- A path without a value is lost somewhere. -/
theorem exists_of_none (h : valueAt? document context result path = none) :
    ∃ place segment held, LostAt document context result path place segment held := by
  have hsome : ∃ n, valueAt? document context result (path.take n) = none := by
    refine ⟨path.length, ?_⟩
    rwa [Path.take, Path.length, List.take_length]
  classical
  have hgone := Nat.find_spec hsome
  cases hn : Nat.find hsome with
  | zero =>
    rw [hn] at hgone
    cases hgone
  | succ place =>
    rw [hn] at hgone
    have hlt : place < Nat.find hsome := by
      rw [hn]
      exact Nat.lt_succ_self place
    have hbefore := Nat.find_min hsome hlt
    obtain ⟨held, hheld⟩ := Option.ne_none_iff_exists'.1 hbefore
    obtain ⟨segment, hsegment⟩ : ∃ segment, path.segments[place]? = some segment := by
      refine Option.ne_none_iff_exists'.1 fun hnone => ?_
      have hend := List.getElem?_eq_none_iff.1 hnone
      rw [Path.take, List.take_of_length_le (Nat.le_succ_of_le hend)] at hgone
      rw [Path.take, List.take_of_length_le hend, hgone] at hheld
      cases hheld
    exact ⟨place, segment, held, hsegment, hheld, hgone⟩

end LostAt

end Lost

/-! ## Looking for the end of an array -/

namespace Query

theorem mem_indexPlaces {place n : Nat} {segments : List String} :
    n ∈ indexPlaces place segments ↔
      place ≤ n ∧ ((segments[n - place]?).bind Numeral.index?).isSome := by
  induction segments generalizing place with
  | nil => simp [indexPlaces]
  | cons s rest ih =>
    have hlater : n ∈ indexPlaces (place + 1) rest ↔
        place + 1 ≤ n ∧ (((s :: rest)[n - place]?).bind Numeral.index?).isSome := by
      rw [ih]
      refine and_congr_right fun hn => ?_
      obtain ⟨k, rfl⟩ := Nat.exists_eq_add_of_le hn
      have hk : place + 1 + k - place = k + 1 := by omega
      rw [hk, List.getElem?_cons_succ, Nat.add_sub_cancel_left]
    have hfirst : (((s :: rest)[place - place]?).bind Numeral.index?).isSome =
        (Numeral.index? s).isSome := by
      simp
    unfold indexPlaces
    split
    · next hs =>
      rw [List.mem_cons, hlater]
      constructor
      · rintro (rfl | ⟨hn, hi⟩)
        · exact ⟨Nat.le_refl n, hfirst.trans hs⟩
        · exact ⟨Nat.le_of_succ_le hn, hi⟩
      · rintro ⟨hn, hi⟩
        rcases Nat.eq_or_lt_of_le hn with rfl | hlt
        · exact .inl rfl
        · exact .inr ⟨hlt, hi⟩
    · next hs =>
      rw [hlater]
      constructor
      · rintro ⟨hn, hi⟩
        exact ⟨Nat.le_of_succ_le hn, hi⟩
      · rintro ⟨hn, hi⟩
        rcases Nat.eq_or_lt_of_le hn with rfl | hlt
        · exact absurd (hfirst.symm.trans hi) hs
        · exact ⟨hlt, hi⟩

end Query

/-- An array is indexed behind its end at a place of a path. -/
def PastAt (document : Value) (context : Context) (result : Value) (path : Path) (place : Nat) : Prop :=
  ∃ i items, (path.segments[place]?).bind Numeral.index? = some i ∧
    valueAt? document context result (path.take place) = some (.arr items) ∧ items.length ≤ i

/-- The items of an array end where a path is lost at an index of it, and only there. -/
theorem pastAt_iff_lostAt {document result : Value} {context : Context} {path : Path} {place : Nat} :
    PastAt document context result path place ↔ ∃ segment items,
      LostAt document context result path place segment (.arr items) ∧
        (Numeral.index? segment).isSome := by
  constructor
  · rintro ⟨i, items, hi, hheld, hle⟩
    obtain ⟨segment, hs, hi⟩ := Option.bind_eq_some_iff.1 hi
    refine ⟨segment, items, ⟨hs, hheld, ?_⟩, Option.isSome_of_eq_some hi⟩
    rw [valueAt?_item hs hheld, hi, Option.bind_some]
    exact List.getElem?_eq_none hle
  · rintro ⟨segment, items, h, hi⟩
    obtain ⟨i, hi⟩ := Option.isSome_iff_exists.1 hi
    have hgone := h.gone
    rw [valueAt?_item h.segment_eq h.held_eq, hi, Option.bind_some] at hgone
    refine ⟨i, items, ?_, h.held_eq, List.getElem?_eq_none_iff.1 hgone⟩
    rw [h.segment_eq, Option.bind_some, hi]

/-- Among places that a path may be lost at, the end of an array is behind none but that one. -/
theorem LostAt.exists_pastAt_iff {document result : Value} {context : Context} {path : Path}
    {place : Nat} {segment : String} {held : Value}
    (h : LostAt document context result path place segment held) {places : List Nat}
    (hmem : (Numeral.index? segment).isSome → place ∈ places) :
    (∃ n ∈ places, PastAt document context result path n) ↔
      (Numeral.index? segment).isSome ∧ ∃ items, held = .arr items := by
  constructor
  · rintro ⟨n, -, hn⟩
    obtain ⟨segment', items, hlost, hi⟩ := pastAt_iff_lostAt.1 hn
    obtain ⟨rfl, rfl, rfl⟩ := h.unique hlost
    exact ⟨hi, items, rfl⟩
  · rintro ⟨hi, items, rfl⟩
    exact ⟨place, hmem hi, pastAt_iff_lostAt.2 ⟨segment, items, h, hi⟩⟩

namespace Value

/-- How many items a value has if it is an array. -/
def size? : Value → Option Nat
  | .arr items => some items.length
  | _ => none

theorem size?_eq_some {v : Value} {n : Nat} :
    v.size? = some n ↔ ∃ items, v = .arr items ∧ items.length = n := by
  cases v <;> simp [size?]

end Value

/-- The expression that a path meets, if it meets one, has a value, wherever one stops on the way. -/
def Supplied (document : Value) (context : Context) (valueOf : Site → Option (Account Value))
    (path : Path) (result : Value) : Prop :=
  ∀ n site, locate document (path.take n) context = .expression site →
    ∃ v, valueOf site = some v ∧ v.result = result

/-- The expression that one meets on the way to a place of a path, if one meets one, has a value. -/
def SuppliedAt (document : Value) (context : Context) (valueOf : Site → Option (Account Value))
    (path : Path) (result : Value) (n : Nat) : Prop :=
  ∀ site, locate document (path.take n) context = .expression site →
    ∃ v, valueOf site = some v ∧ v.result = result

namespace Plan

variable {S : Setting} {document result : Value} {context : Context}
  {valueOf : Site → Option (Account Value)} {path : Path}

theorem comesTo_measure (hS : S.FindsIn document context) {n : Nat}
    (hk : SuppliedAt document context valueOf path result n) :
    (measure (path.take n)).ComesTo S valueOf
      ((valueAt? document context result (path.take n)).bind Value.size?) := by
  refine comesTo_find.2 ?_
  rw [hS]
  unfold valueAt?
  cases hl : locate document (path.take n) context with
  | missing => exact comesTo_done.2 rfl
  | static place value context =>
    cases value with
    | arr items =>
      refine comesTo_done.2 ?_
      simp [Found.itemsOf, Located.value?, Value.size?]
    | _ => exact comesTo_done.2 rfl
  | expression site =>
    obtain ⟨v, hv, rfl⟩ := hk site hl
    refine comesTo_evaluate.2 ⟨v, hv, ?_⟩
    rw [Located.value?]
    cases v.result.descend? site.rest with
    | none => exact comesTo_done.2 rfl
    | some held => cases held <;> exact comesTo_done.2 rfl

/-- One finds out whether an array ends before a path does. -/
theorem comesTo_pastEnd (hS : S.FindsIn document context) {places : List Nat}
    (hk : ∀ n ∈ places, SuppliedAt document context valueOf path result n) :
    ∃ past, (answer (Query.pastEnd path places)).ComesTo S valueOf past ∧
      (past = true ↔ ∃ place ∈ places, PastAt document context result path place) := by
  induction places with
  | nil => exact ⟨false, comesTo_done.2 rfl, by simp⟩
  | cons place places ih =>
    obtain ⟨hplace, hplaces⟩ := List.forall_mem_cons.1 hk
    have hmeasure := comesTo_measure hS hplace
    obtain ⟨later, hlater, hpast⟩ := ih hplaces
    have hskip (hnot : ¬ PastAt document context result path place) :
        later = true ↔ ∃ n ∈ place :: places, PastAt document context result path n := by
      simp [hpast, hnot]
    unfold Query.pastEnd
    cases hi : (path.segments[place]?).bind Numeral.index? with
    | none =>
      refine ⟨later, hlater, hskip ?_⟩
      rintro ⟨i, items, hi', -⟩
      rw [hi] at hi'
      cases hi'
    | some i =>
      by_cases hplace : PastAt document context result path place
      · refine ⟨true, comesTo_bind.2 ⟨_, hmeasure, ?_⟩,
          iff_of_true rfl ⟨place, List.mem_cons_self, hplace⟩⟩
        obtain ⟨j, items, hj, hheld, hle⟩ := hplace
        obtain rfl : i = j := Option.some.inj (hi.symm.trans hj)
        rw [hheld, Option.bind_some, Value.size?]
        show (answer (if items.length ≤ i then pure true else _)).ComesTo S valueOf true
        rw [if_pos hle]
        exact comesTo_done.2 rfl
      · refine ⟨later, comesTo_bind.2 ⟨_, hmeasure, ?_⟩, hskip hplace⟩
        cases hsize : (valueAt? document context result (path.take place)).bind Value.size? with
        | none => exact hlater
        | some size =>
          obtain ⟨held, hheld, hs⟩ := Option.bind_eq_some_iff.1 hsize
          obtain ⟨items, rfl, rfl⟩ := Value.size?_eq_some.1 hs
          have hin : ¬ items.length ≤ i := fun hle => hplace ⟨i, items, hi, hheld, hle⟩
          show (answer (if items.length ≤ i then pure true else _)).ComesTo S valueOf later
          rw [if_neg hin]
          exact hlater

end Plan

namespace Request

variable {request : Request σ} {left : Nat} {stack stack' : Stack} {w w' : World σ} {path : Path}
  {result : Value}

/-- What is known in a world where nobody is called. -/
def memory (request : Request σ) (w : World σ) : Setting :=
  ⟨request.foundAt w, fun name _ => .error (.new (.unknownResolver name []))⟩

/-- What is kept of an expression. -/
def keptAccount (w : World σ) (site : Site) : Option (Account Value) :=
  (w.cache.lookup (keyOf site)).map fun entry => ⟨entry.value, entry.reads, []⟩

/-- A plan that needs only what is known is done at once and leaves the world as it is. -/
theorem follow_kept {p : Plan α} (hr : p.Reuses) {v : α}
    (hv : p.ComesTo (request.memory w) (keptAccount w) v) (stack : Stack) :
    ∃ s, request.follow (request.evaluate left) p stack w = .done (.ok v, s) w := by
  induction p generalizing stack with
  | done result =>
    cases result with
    | ok a =>
      obtain rfl := Plan.comesTo_done.1 hv
      exact ⟨stack, rfl⟩
    | error fault =>
      obtain ⟨a, ha, -⟩ := hv
      cases ha
  | find path next ih => exact ih _ (hr _) (Plan.comesTo_find.1 hv) _
  | evaluate site fresh next ih =>
    obtain ⟨rfl, hr⟩ := hr
    obtain ⟨a, ha, hv⟩ := Plan.comesTo_evaluate.1 hv
    obtain ⟨entry, hentry, rfl⟩ := Option.map_eq_some_iff.1 ha
    rw [follow_evaluate]
    show ∃ s, Step.bind (request.evaluate left site false stack w) _ = _
    rw [evaluate_of_known hentry]
    exact ih _ (hr _) hv _
  | call name args next ih =>
    obtain ⟨a, ha, -⟩ := hv
    obtain ⟨v, hcall, -⟩ := Plan.account_call.1 ha
    cases hcall

/-- The expression that a path meets, if it meets one, has a kept result. -/
def Remembers (request : Request σ) (w : World σ) (path : Path) (result : Value) : Prop :=
  ∀ site, locate w.document path (w.context.merge request.context) = .expression site →
    ∃ entry, w.cache.lookup (keyOf site) = some entry ∧ entry.value = result

theorem Remembers.supplied (h : request.Remembers w path result) :
    Supplied w.document (w.context.merge request.context) (keptAccount w) path result := by
  intro n site hl
  obtain ⟨entry, hentry, rfl⟩ := h { site with rest := site.rest ++ path.segments.drop n } (by
    conv_lhs => rw [← take_append_drop path n, locate_append, hl]
    rfl)
  exact ⟨_, Option.map_eq_some_iff.2 ⟨entry, hentry, rfl⟩, rfl⟩

/-- Where the expression on the way is known, nothing is evaluated to find out whether an array ends. -/
theorem follow_pastEnd {places : List Nat} (hk : ∀ n ∈ places, SuppliedAt w.document
    (w.context.merge request.context) (keptAccount w) path result n) (stack : Stack) :
    ∃ past s, request.follow (request.evaluate left) (Plan.answer (Query.pastEnd path places)) stack w =
      .done (.ok past, s) w ∧ (past = true ↔ ∃ place ∈ places,
        PastAt w.document (w.context.merge request.context) result path place) := by
  have hS : (request.memory w).FindsIn w.document (w.context.merge request.context) := fun _ => rfl
  obtain ⟨past, hcomes, hpast⟩ := Plan.comesTo_pastEnd hS hk
  obtain ⟨s, hdone⟩ := follow_kept
    (Plan.reuses_answer (Query.within_pastEnd path places)) hcomes stack
  exact ⟨past, s, hdone, hpast⟩

theorem answer_absent (path : Path) (place : Nat) (segments : List String) :
    Plan.answer (Query.absent path place segments) =
      (Plan.answer (Query.pastEnd path (Query.indexPlaces place segments))).bind fun past =>
        Plan.answer (if past then pure .null else Query.fail (.notFound path)) :=
  Plan.answer_bind _ _

/-- What is said of a path without a value is said at once. -/
theorem follow_absent (left place : Nat) (segments : List String)
    (hk : ∀ n ∈ Query.indexPlaces place segments, SuppliedAt w.document
      (w.context.merge request.context) (keptAccount w) path result n) (stack : Stack) : ∃ past s, request.follow (request.evaluate left)
        (Plan.answer (Query.absent path place segments)) stack w =
      .done (if past then .ok .null else .error (.new (.notFound path)), s) w ∧
        (past = true ↔ ∃ n ∈ Query.indexPlaces place segments,
          PastAt w.document (w.context.merge request.context) result path n) := by
  obtain ⟨past, s, hdone, hpast⟩ := follow_pastEnd hk stack
  refine ⟨past, s, ?_, hpast⟩
  rw [answer_absent, follow_bind]
  show Step.bind (request.follow (request.evaluate left) _ stack w) _ = _
  rw [hdone]
  cases past <;> rfl

end Request

/-! ## References -/

namespace Request

variable {request : Request σ} {left : Nat} {stack stack' : Stack} {w w' : World σ} {result : Value}

/-- The way to the owner of an expression can be followed. -/
theorem valueAt?_owner {document : Value} {context : Context} {site : Site} {p : Path}
    (hl : locate document p context = .expression site) (result : Value) {n : Nat}
    (hn : n ≤ site.owner.length) : valueAt? document context result (site.owner.take n) ≠ none := by
  have hsite := (locate_site hl).2.1
  have howner : site.owner.length = site.path.length - 1 := by
    rw [Site.owner_eq_take, Path.take, Path.length, List.length_take, Path.length]
    exact Nat.min_eq_left (Nat.sub_le _ _)
  have hpos : site.path.segments ≠ [] := by
    obtain ⟨keys, hp, hne, -⟩ := walk_expression hl
    rw [hp]
    simpa [Path.append, Path.root] using hne
  have hlt : n < site.path.segments.length := by
    have := List.length_pos_iff.2 hpos
    rw [howner, Path.length] at hn
    omega
  rw [Site.owner_eq_take, take_take (by omega)]
  intro hnone
  rw [valueAt?] at hnone
  rw [← take_append_drop site.path n, locate_append] at hsite
  cases hl' : locate document (site.path.take n) context with
  | missing => rw [hl'] at hsite; cases hsite
  | static => rw [hl'] at hnone; cases hnone
  | expression inner =>
    rw [hl', Located.further, Located.expression.injEq] at hsite
    have hrest := congrArg Site.rest hsite
    have hdrop : site.path.segments.drop n = [] := (List.append_eq_nil_iff.1 hrest).2
    rw [List.drop_eq_nil_iff] at hdrop
    omega

/-- How far a reading of a path gets: it may meet an expression, which then is evaluated. -/
inductive Meets (request : Request σ) (left : Nat) (fresh : Bool) (path : Path) (stack : Stack)
    (w : World σ) : Value → Stack → World σ → Prop where
  | nothing (free : ∀ site, locate w.document path (w.context.merge request.context) ≠ .expression site)
    (result : Value) : Meets request left fresh path stack w result (stack.record (walkReads path)) w
  | expression {site : Site} {result : Value} {stack' : Stack} {w' : World σ}
    (met : locate w.document path (w.context.merge request.context) = .expression site)
    (run : (request.evaluate left site fresh).Runs (stack.record (walkReads path)) w (.ok result)
      stack' w') : Meets request left fresh path stack w result stack' w'

/-- A reference comes to segments that lead nowhere, be it in the document or in the result of the
expression that they meet. -/
inductive Misses (request : Request σ) (left : Nat) (here : Query.Standpoint) (parents : Nat)
    (steps : List RefStep) (fresh : Bool) (stack : Stack) (w : World σ) (segments : List String)
    (result : Value) (stack' : Stack) (w' : World σ) : Prop where
  | intro {s : Stack} {v : World σ} (climbs : parents ≤ here.owner.length)
    (named : (request.follow (request.evaluate left) (Plan.answer (Query.ofSteps here steps))).Runs
      stack w (.ok segments) s v)
    (plain : ¬ (parents = 0 ∧ segments.head? = some contextKey))
    (met : request.Meets left fresh (Query.target here parents segments) s v result stack' w')
    (nowhere : valueAt? v.document (v.context.merge request.context) result
      (Query.target here parents segments) = none) :
    Misses request left here parents steps fresh stack w segments result stack' w'

/-- What is left to do of a reference that names no value. -/
def giveUp (request : Request σ) (left : Nat) (here : Query.Standpoint) (parents : Nat)
    (segments : List String) : Task σ (Except Fault Value) :=
  request.follow (request.evaluate left) (Plan.answer (Query.absent (Query.target here parents segments)
    (here.owner.length - parents) segments))

/-- The ways in which a reference ends. -/
inductive Referred (request : Request σ) (left : Nat) (here : Query.Standpoint) (parents : Nat)
    (steps : List RefStep) (fresh : Bool) (stack : Stack) (w : World σ) :
    Except Fault Value → Stack → World σ → Prop where
  | aboveRoot (above : here.owner.length < parents) :
    Referred request left here parents steps fresh stack w
      (.error (.new (.aboveRoot (Query.climbText parents here.owner)))) stack w
  | unnamed {fault : Fault} {stack' : Stack} {w' : World σ} (climbs : parents ≤ here.owner.length)
    (failed : (request.follow (request.evaluate left) (Plan.answer (Query.ofSteps here steps))).Runs
      stack w (.error fault) stack' w') :
    Referred request left here parents steps fresh stack w (.error fault) stack' w'
  | context {segments : List String} {stack' : Stack} {w' : World σ}
    (climbs : parents ≤ here.owner.length)
    (named : (request.follow (request.evaluate left) (Plan.answer (Query.ofSteps here steps))).Runs
      stack w (.ok segments) stack' w')
    (reserved : parents = 0 ∧ segments.head? = some contextKey) :
    Referred request left here parents steps fresh stack w
      (.ok (Query.contextValue here.context segments.tail)) stack' w'
  | unread {segments : List String} {fault : Fault} {s stack' : Stack} {v w' : World σ}
    (climbs : parents ≤ here.owner.length)
    (named : (request.follow (request.evaluate left) (Plan.answer (Query.ofSteps here steps))).Runs
      stack w (.ok segments) s v)
    (plain : ¬ (parents = 0 ∧ segments.head? = some contextKey))
    (failed : (request.follow (request.evaluate left)
      (Plan.resolve fresh (Query.target here parents segments))).Runs s v (.error fault) stack' w') :
    Referred request left here parents steps fresh stack w (.error fault) stack' w'
  | read {segments : List String} {value : Value} {s stack' : Stack} {v w' : World σ}
    (climbs : parents ≤ here.owner.length)
    (named : (request.follow (request.evaluate left) (Plan.answer (Query.ofSteps here steps))).Runs
      stack w (.ok segments) s v)
    (plain : ¬ (parents = 0 ∧ segments.head? = some contextKey))
    (found : (request.follow (request.evaluate left)
      (Plan.resolve fresh (Query.target here parents segments))).Runs s v (.ok (some value)) stack' w') :
    Referred request left here parents steps fresh stack w (.ok value) stack' w'
  | missing {segments : List String} {result : Value} {r : Except Fault Value} {s stack' : Stack}
    {v w' : World σ}
    (misses : request.Misses left here parents steps fresh stack w segments result s v)
    (ending : (request.giveUp left here parents segments).Runs s v r stack' w') :
    Referred request left here parents steps fresh stack w r stack' w'

variable {here : Query.Standpoint} {parents : Nat} {steps : List RefStep} {fresh : Bool}

/-- A reading gives nothing only where a path leads nowhere. -/
theorem runs_resolve_none {path : Path}
    (h : (request.follow (request.evaluate left) (Plan.resolve fresh path)).Runs stack w (.ok none)
      stack' w') : ∃ result, request.Meets left fresh path stack w result stack' w' ∧
        valueAt? w.document (w.context.merge request.context) result path = none := by
  have h := runs_follow_find h
  unfold foundAt at h
  unfold valueAt?
  cases hl : locate w.document path (w.context.merge request.context) with
  | missing =>
    rw [hl] at h
    obtain ⟨-, rfl, rfl⟩ := Task.runs_pure_iff.1 h
    exact ⟨.null, .nothing (fun site hs => by rw [hl] at hs; cases hs) .null, rfl⟩
  | expression site =>
    rw [hl] at h
    rcases runs_follow_evaluate h with ⟨fault, hr, -⟩ | ⟨value, s, v, hrun, h⟩
    · cases hr
    · obtain ⟨hr, rfl, rfl⟩ := Task.runs_pure_iff.1 h
      exact ⟨value, .expression hl hrun, (Except.ok.inj hr).symm⟩
  | static place value context =>
    rw [hl] at h
    cases value with
    | obj members =>
      obtain ⟨k, hk⟩ := Found.exists_levelsOf (.obj members)
      have h : (request.follow (request.evaluate left) (Plan.descend fresh (Found.levelsOf (.obj members))
        (.mapping _ (Found.levelsOf (.obj members))))).Runs _ w (.ok none) stack' w' := h
      rw [hk, Plan.descend_mapping] at h
      rcases runs_follow_bind.1 h with ⟨fault, hr, -⟩ | ⟨members, s, v, -, h⟩
      · cases hr
      · cases (Task.runs_pure_iff.1 h).1
    | arr items =>
      obtain ⟨k, hk⟩ := Found.exists_levelsOf (.arr items)
      have h : (request.follow (request.evaluate left) (Plan.descend fresh (Found.levelsOf (.arr items))
        (.list _ (Found.levelsOf (.arr items))))).Runs _ w (.ok none) stack' w' := h
      rw [hk, Plan.descend_list] at h
      rcases runs_follow_bind.1 h with ⟨fault, hr, -⟩ | ⟨values, s, v, -, h⟩
      · cases hr
      · cases (Task.runs_pure_iff.1 h).1
    | _ => cases (Task.runs_pure_iff.1 h).1

/-- Every run of a reference ends in one of these ways. -/
theorem runs_reference {r : Except Fault Value}
    (h : (request.follow (request.evaluate left)
      (Plan.answer (Query.ofReference here parents steps fresh))).Runs stack w r stack' w') :
    request.Referred left here parents steps fresh stack w r stack' w' := by
  by_cases habove : here.owner.length < parents
  · rw [Query.ofReference, if_pos habove] at h
    obtain ⟨rfl, rfl, rfl⟩ := Task.runs_pure_iff.1 h
    exact .aboveRoot habove
  · have hclimbs := Nat.le_of_not_lt habove
    rw [Query.ofReference_of_le hclimbs, Plan.answer_bind] at h
    rcases runs_follow_bind.1 h with ⟨fault, rfl, hsteps⟩ | ⟨segments, s, v, hsteps, h⟩
    · exact .unnamed hclimbs hsteps
    · by_cases hplain : parents = 0 ∧ segments.head? = some contextKey
      · rw [Query.follow, if_pos hplain] at h
        obtain ⟨rfl, rfl, rfl⟩ := Task.runs_pure_iff.1 h
        exact .context hclimbs hsteps hplain
      · rw [Query.follow_target hplain] at h
        rcases runs_follow_bind.1 h with ⟨fault, rfl, hread⟩ | ⟨value, u, x, hread, h⟩
        · exact .unread hclimbs hsteps hplain hread
        · cases value with
          | some value =>
            obtain ⟨rfl, rfl, rfl⟩ := Task.runs_pure_iff.1 h
            exact .read hclimbs hsteps hplain hread
          | none =>
            obtain ⟨result, hmeets, hnone⟩ := runs_resolve_none hread
            exact .missing (.intro hclimbs hsteps hplain hmeets hnone) h

/-- What a reading has met is known afterwards, and the document is as it was. -/
theorem Meets.remembers (hn : request.options.onError = none) (ht : w.cache.Timely) {path : Path}
    (h : request.Meets left fresh path stack w result stack' w') :
    request.Remembers w' path result ∧ w'.document = w.document ∧ w'.context = w.context := by
  cases h with
  | nothing free => exact ⟨fun site hl => absurd hl (free site), rfl, rfl⟩
  | @expression site _ _ _ met run =>
    have hst := request.evaluate_steady left _ _ _ _ _ _ _ run
    refine ⟨fun site' hl => ?_, hst.document, hst.context⟩
    rw [hst.document, hst.context, met] at hl
    cases hl
    exact known_of_evaluate hn ht run

/-- A reading gives what the path leads to, if not to a value in the document itself. -/
theorem Meets.runs_none {path : Path}
    (h : request.Meets left fresh path stack w result stack' w')
    (hnone : valueAt? w.document (w.context.merge request.context) result path = none) :
    (request.follow (request.evaluate left) (Plan.resolve fresh path)).Runs stack w (.ok none)
      stack' w' := by
  show (request.follow _ (.find path _)).Runs stack w (.ok none) stack' w'
  rw [Task.Runs, follow_find, foundAt]
  rw [valueAt?] at hnone
  cases h with
  | nothing free =>
    cases hl : locate w.document path (w.context.merge request.context) with
    | missing => exact .done _ _
    | expression site => exact absurd hl (free site)
    | static => rw [hl] at hnone; cases hnone
  | @expression site _ _ _ met run =>
    rw [met] at hnone ⊢
    show (request.follow _ (.evaluate site fresh _)).Runs _ w (.ok none) stack' w'
    rw [follow_evaluate, Task.runs_bind_iff]
    exact ⟨_, _, _, run, Task.runs_pure_iff.2 ⟨congrArg Except.ok hnone.symm, rfl, rfl⟩⟩

theorem Misses.runs {segments : List String} {s : Stack} {v : World σ} {r : Except Fault Value}
    (h : request.Misses left here parents steps fresh stack w segments result s v)
    (ending : (request.giveUp left here parents segments).Runs s v r stack' w') :
    (request.follow (request.evaluate left)
      (Plan.answer (Query.ofReference here parents steps fresh))).Runs stack w r stack' w' := by
  obtain ⟨climbs, named, plain, met, nowhere⟩ := h
  rw [Query.ofReference_of_le climbs, Plan.answer_bind, runs_follow_bind]
  refine .inr ⟨_, _, _, named, ?_⟩
  rw [Query.follow_target plain]
  exact runs_follow_bind.2 (.inr ⟨_, _, _, met.runs_none nowhere, ending⟩)

/-- Only the segments of the reference itself can lead nowhere. -/
theorem le_of_lostAt {document : Value} {context c : Context} {site : Site} {p : Path}
    (hl : locate document p context = .expression site) {segments : List String} {place : Nat}
    {segment : String} {held : Value}
    (h : LostAt document context result (Query.target ⟨site.owner, c⟩ parents segments) place segment
      held) : site.owner.length - parents ≤ place ∧
        segments[place - (site.owner.length - parents)]? = some segment := by
  have hlength : (site.owner.segments.take (site.owner.length - parents)).length =
      site.owner.length - parents := by
    rw [List.length_take]
    exact Nat.min_eq_left (Nat.sub_le _ _)
  have hle : site.owner.length - parents ≤ place := by
    by_contra hlt
    have hwithin : place + 1 ≤ site.owner.length - parents := Nat.lt_of_not_le hlt
    have htake : (Query.target ⟨site.owner, c⟩ parents segments).take (place + 1) =
        site.owner.take (place + 1) := by
      rw [Query.target, Path.append, Path.take, Path.take, Path.take,
        List.take_append_of_le_length (hwithin.trans_eq hlength.symm), List.take_take,
        Nat.min_eq_left hwithin]
    have hgone := h.gone
    rw [htake] at hgone
    exact valueAt?_owner hl result (hwithin.trans (Nat.sub_le _ _)) hgone
  have hsegment := h.segment_eq
  rw [Query.target, Path.append, Path.take, List.getElem?_append_right (hlength.trans_le hle), hlength]
    at hsegment
  exact ⟨hle, hsegment⟩

/-- A reference to a path without a value is lost at one segment. It is `null` exactly if that segment
is an index and is applied to an array, and is else not found. Nothing more is evaluated to tell. -/
theorem missing_reference (hn : request.options.onError = none) (ht : w.cache.Timely) {site : Site}
    {p : Path} (hl : locate w.document p (w.context.merge request.context) = .expression site)
    {segments : List String} {s : Stack} {v : World σ}
    (h : request.Misses left ⟨site.owner, site.context⟩ parents steps fresh stack w segments result s v) :
    ∃ place segment held r stack',
      LostAt w.document (w.context.merge request.context) result
        (Query.target ⟨site.owner, site.context⟩ parents segments) place segment held ∧
      (r = .ok .null ↔ (Numeral.index? segment).isSome ∧ ∃ items, held = .arr items) ∧
      (r ≠ .ok .null →
        r = .error (.new (.notFound (Query.target ⟨site.owner, site.context⟩ parents segments)))) ∧
      request.giveUp left ⟨site.owner, site.context⟩ parents segments s v = .done (r, stack') v ∧
      (request.follow (request.evaluate left) (Plan.answer
        (Query.ofReference ⟨site.owner, site.context⟩ parents steps fresh))).Runs stack w r stack' v := by
  have hmisses := h
  obtain ⟨-, named, -, met, nowhere⟩ := h
  have hst := follow_steady (request.evaluate_steady left) named
  obtain ⟨hknown, hd, hc⟩ := met.remembers hn (hst.timely ht)
  rw [hst.document] at hd nowhere
  rw [hst.context] at hc nowhere
  obtain ⟨place, segment, held, hlost⟩ := LostAt.exists_of_none nowhere
  obtain ⟨hle, hsegment⟩ := le_of_lostAt hl hlost
  obtain ⟨past, stack', hdone, hpast⟩ :=
    follow_absent left (site.owner.length - parents) segments (fun n _ => hknown.supplied n) s
  have hverdict : past = true ↔ (Numeral.index? segment).isSome ∧ ∃ items, held = .arr items := by
    rw [hpast, hd, hc]
    refine hlost.exists_pastAt_iff fun hi => Query.mem_indexPlaces.2 ⟨hle, ?_⟩
    rwa [hsegment, Option.bind_some]
  refine ⟨place, segment, held, _, stack', hlost, ?_, ?_, hdone, hmisses.runs ?_⟩
  · rw [← hverdict]
    cases past <;> simp
  · cases past <;> simp
  · show Step.Ends (request.follow (request.evaluate left) _ s v) _ v
    rw [hdone]
    exact .done _ _

/-- An array with one item, and an expression that asks for the second one. -/
def single : Value :=
  .obj [("x", .arr [.str "a"]), (".y", .str "${x.1}")]

def ofSingle : Request Unit :=
  ⟨.default, .empty, none⟩

def withSingle : World Unit :=
  ⟨single, .empty, .empty, [], ()⟩

def secondOfSingle : Site :=
  ⟨⟨[".y"]⟩, "${x.1}", .empty, []⟩

theorem locate_second : locate single ⟨["y"]⟩ (withSingle.context.merge ofSingle.context) =
    .expression secondOfSingle := by
  cbv

theorem misses_second : ofSingle.Misses 0 ⟨secondOfSingle.owner, secondOfSingle.context⟩ 0
    [.key "x", .key "1"] false [] withSingle ["x", "1"] .null [] withSingle := by
  have hlocate : locate single ⟨["x", "1"]⟩ (withSingle.context.merge ofSingle.context) = .missing := by
    cbv
  have hsteps : ofSingle.follow (ofSingle.evaluate 0) (Plan.answer (Query.ofSteps
      ⟨secondOfSingle.owner, secondOfSingle.context⟩ [.key "x", .key "1"])) [] withSingle =
        .done (.ok ["x", "1"], []) withSingle := by
    cbv
  have hnamed : (ofSingle.follow (ofSingle.evaluate 0) (Plan.answer (Query.ofSteps
      ⟨secondOfSingle.owner, secondOfSingle.context⟩ [.key "x", .key "1"]))).Runs [] withSingle
        (.ok ["x", "1"]) [] withSingle := by
    rw [Task.Runs, hsteps]
    exact .done _ _
  have hmeets : ofSingle.Meets 0 false ⟨["x", "1"]⟩ [] withSingle .null [] withSingle :=
    .nothing (fun site hl => by cases hlocate.symm.trans hl) .null
  exact .intro (Nat.zero_le _) hnamed (by decide) hmeets (congrArg (Located.value? .null) hlocate)

theorem lost_second : LostAt single (withSingle.context.merge ofSingle.context) .null ⟨["x", "1"]⟩ 1 "1"
    (.arr [.str "a"]) := by
  refine ⟨rfl, ?_, ?_⟩
  · cbv
  · cbv

/-- The second item is `null` because it is behind the end of the array. -/
theorem second_absent : ∃ stack, (ofSingle.follow (ofSingle.evaluate 0) (Plan.answer
    (Query.ofReference ⟨secondOfSingle.owner, secondOfSingle.context⟩ 0 [.key "x", .key "1"]
      false))).Runs [] withSingle (.ok .null) stack withSingle := by
  obtain ⟨place, segment, held, r, stack, hlost, hnull, -, -, hrun⟩ :=
    missing_reference rfl Cache.timely_empty locate_second misses_second
  obtain ⟨-, rfl, rfl⟩ := lost_second.unique hlost
  obtain rfl := hnull.2 ⟨by decide, _, rfl⟩
  exact ⟨stack, hrun⟩

end Request

end LiveDoc

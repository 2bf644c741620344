import LiveDoc.Proofs.Outcomes

/-! # References as queries

A reference asks for its segments, and then for the value at the path that they name.
-/

namespace LiveDoc

/-- A reference, be it to be evaluated anew or not. -/
def Expr.reference (fresh : Bool) (parents : Nat) (steps : List RefStep) : Expr :=
  if fresh then .fresh parents steps else .ref parents steps

namespace Query

variable {S : Setting} {here : Standpoint} {parents : Nat} {steps : List RefStep} {fresh : Bool}
  {segments : List String} {e : Expr}

/-- The path that the segments of a reference name. -/
def target (here : Standpoint) (parents : Nat) (segments : List String) : Path :=
  (here.owner.take (here.owner.length - parents)).append segments

theorem target_append (more : List String) :
    target here parents (segments ++ more) = (target here parents segments).append more :=
  congrArg Path.mk (List.append_assoc ..).symm

theorem length_target :
    (target here parents segments).length = here.owner.length - parents + segments.length := by
  simp [target, Path.append, Path.take, Path.length]

/-- What becomes of a reference to a path without a value; its own segments begin at a place. -/
def absent (path : Path) (place : Nat) (segments : List String) : Query Value := do
  if ← pastEnd path (indexPlaces place segments) then return .null else fail (.notFound path)

theorem ofExpr_reference : ofExpr here (Expr.reference fresh parents steps) =
    ofReference here parents steps fresh := by
  cases fresh with
  | false =>
    show ofExpr here (.ref parents steps) = _
    rw [ofExpr]
  | true =>
    show ofExpr here (.fresh parents steps) = _
    rw [ofExpr]

theorem ofReference_of_le (hclimbs : parents ≤ here.owner.length) :
    ofReference here parents steps fresh =
      (ofSteps here steps).bind fun segments => follow here parents segments fresh := by
  rw [ofReference, if_neg (Nat.not_lt_of_le hclimbs)]
  rfl

/-- A reference with known segments that does not name the context is read, and looked for if it has no
value. -/
theorem follow_target (h : ¬ (parents = 0 ∧ segments.head? = some contextKey)) :
    follow here parents segments fresh = .read (target here parents segments) fresh fun
      | some v => .done (.ok v)
      | none => absent (target here parents segments) (here.owner.length - parents) segments := by
  have hbase : (here.owner.take (here.owner.length - parents)).length =
      here.owner.length - parents := by
    simp [Path.take, Path.length]
  rw [follow, if_neg h]
  refine congrArg (Query.read _ fresh) (funext fun v => ?_)
  cases v with
  | some v => rfl
  | none =>
    show absent _ (here.owner.take (here.owner.length - parents)).length segments = _
    rw [hbase]
    rfl

/-- Names are the segments that they stand for. -/
theorem ofSteps_names (names : List String) : ofSteps here (names.map .key) = .done (.ok names) := by
  induction names with
  | nil =>
    rw [List.map_nil, ofSteps]
    rfl
  | cons name rest ih =>
    rw [List.map_cons, ofSteps, ih]
    rfl

theorem comesTo_steps_key {name : String} : (ofSteps here (.key name :: steps)).ComesTo S segments ↔
    ∃ rest, (ofSteps here steps).ComesTo S rest ∧ name :: rest = segments := by
  rw [ofSteps]
  exact comesTo_bind.trans (exists_congr fun rest => and_congr_right fun _ => comesTo_done)

theorem comesTo_steps_at : (ofSteps here (.at e :: steps)).ComesTo S segments ↔
    ∃ index, (ofExpr here e).ComesTo S index ∧ ∃ key, indexKey index = .ok key ∧
      ∃ rest, (ofSteps here steps).ComesTo S rest ∧ key :: rest = segments := by
  rw [ofSteps]
  refine comesTo_bind.trans (exists_congr fun index => and_congr_right fun _ => ?_)
  refine comesTo_bind.trans (exists_congr fun key => and_congr ?_ ?_)
  · cases indexKey index with
    | error error => exact iff_of_false not_comesTo_error fun h => by cases h
    | ok key' => exact comesTo_done.trans ⟨congrArg Except.ok, Except.ok.inj⟩
  · exact comesTo_bind.trans (exists_congr fun rest => and_congr_right fun _ => comesTo_done)

end Query

end LiveDoc

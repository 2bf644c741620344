import LiveDoc.Proofs.CompositeReads
import LiveDoc.Proofs.MissingReferences
import LiveDoc.Proofs.NumberText

/-! # Indexing what a reference names

Whatever an expression gives can be indexed, and an index without an item gives `null`. A reference that
ends in an index is a longer reference instead. It gives the same item and, behind the end of an array,
`null` too; but a negative number is no index in a path, and such a reference is not found.
-/

namespace LiveDoc

variable {σ : Type}

/-! ## Whole numbers as segments -/

namespace Numeral

theorem toList_toString_int (i : Int) :
    (toString i).toList = withSign (decide (i < 0)) (Nat.toDigits 10 i.natAbs) :=
  Number.toList_text_int i

theorem not_mem_toString {c : Char} (hsign : c ≠ '-') (hdigit : c.isDigit = false) (i : Int) :
    c ∉ (toString i).toList := by
  intro hc
  have hdigits (hc : c ∈ Nat.toDigits 10 i.natAbs) : False := by
    rw [digits_toDigits _ c hc] at hdigit
    cases hdigit
  rw [toList_toString_int, withSign] at hc
  split at hc
  · rcases List.mem_cons.1 hc with hc | hc
    · exact hsign hc
    · exact hdigits hc
  · exact hdigits hc

/-- A negative number is no index. -/
theorem index?_toString_int {i : Int} (h : fitsSigned i = true) :
    index? (toString i) = if 0 ≤ i then some i.toNat else none := by
  split
  · next hi =>
    obtain ⟨n, rfl⟩ := Int.eq_ofNat_of_zero_le hi
    refine index?_toString (i := n) ?_
    simp only [fitsSigned, fitsUnsigned, Bool.and_eq_true, decide_eq_true_eq] at h ⊢
    omega
  · next hi =>
    refine Option.eq_none_iff_forall_not_mem.2 fun n hn => ?_
    have hsign : '-' ∈ (toString i).toList := by
      rw [toList_toString_int, decide_eq_true (Int.not_le.1 hi)]
      exact List.mem_cons_self
    rcases chars_of_index? hn _ hsign with h | h <;> exact absurd h (by decide)

theorem isExact_toString_int (i : Int) : isExact (toString i) = false :=
  isExact_of_not_mem (not_mem_toString (by decide) (by decide) i)
    (not_mem_toString (by decide) (by decide) i)

theorem toString_int_ne_contextKey (i : Int) : toString i ≠ contextKey := by
  intro h
  have hdollar : '$' ∉ (toString i).toList := not_mem_toString (by decide) (by decide) i
  rw [h] at hdollar
  exact hdollar (by decide)

end Numeral

namespace Value

/-- The item of an array that a whole number names. -/
def item? (items : List Value) (i : Int) : Option Value :=
  if 0 ≤ i then items[i.toNat]? else none

theorem child?_toString {items : List Value} {i : Int} (h : Numeral.fitsSigned i = true) :
    child? (.arr items) (toString i) = item? items i := by
  rw [child?, Numeral.index?_toString_int h, item?]
  split <;> rfl

end Value

/-! ## Reading an item -/

section Items

variable {S : Setting} {document result : Value} {context : Context} {path : Path} {n : Nat}
  {v : Option Value} {items : List Value} {key : String}

theorem Supplied.of_append {valueOf : Site → Option (Account Value)} {more : List String}
    (h : Supplied document context valueOf (path.append more) result) :
    Supplied document context valueOf path result := by
  intro m site hsite
  refine h (min m path.length) site ?_
  have htake : (path.segments ++ more).take (min m path.segments.length) = path.segments.take m := by
    rw [List.take_append_of_le_length (Nat.min_le_right _ _), ← List.take_take, List.take_length]
  rw [← hsite]
  exact congrArg (fun segments => locate document ⟨segments⟩ context) htake

namespace Plan.ComesTo

/-- The expression that a reading meets has a value if the reading comes to anything. -/
theorem exists_supplied (hS : S.FindsIn document context)
    (h : (Plan.resolve false path).ComesTo S (S.account n) v) :
    ∃ result, Supplied document context (S.account n) path result := by
  have h := Plan.comesTo_find.1 h
  rw [hS] at h
  by_cases hmeets : ∃ site, locate document path context = .expression site
  · obtain ⟨site, hl⟩ := hmeets
    rw [hl] at h
    obtain ⟨a, ha, -⟩ := Plan.comesTo_evaluate.1 h
    refine ⟨a.result, fun m site' hsite' => ⟨a, ?_, rfl⟩⟩
    rw [← take_append_drop path m, locate_append, hsite'] at hl
    obtain rfl := Located.expression.inj hl
    have hsame : site'.Same { site' with rest := site'.rest ++ path.segments.drop m } := ⟨rfl, rfl, rfl⟩
    exact (Setting.account_congr hsame n).trans ha
  · refine ⟨.null, fun m site hsite => absurd ?_ hmeets⟩
    rw [← take_append_drop path m, locate_append, hsite]
    exact ⟨_, rfl⟩

/-- An array that a reading comes to has as many items as the one that its path leads to. -/
theorem sized (hS : S.FindsIn document context)
    (h : (Plan.resolve false path).ComesTo S (S.account n) v)
    (hk : Supplied document context (S.account n) path result) :
    (valueAt? document context result path).bind Value.size? = v.bind Value.size? := by
  have h := Plan.comesTo_find.1 h
  rw [hS] at h
  unfold valueAt?
  cases hl : locate document path context with
  | missing =>
    rw [hl] at h
    obtain rfl := Plan.comesTo_done.1 h
    rfl
  | expression site =>
    rw [hl] at h
    obtain ⟨a, ha, h⟩ := Plan.comesTo_evaluate.1 h
    obtain rfl := Plan.comesTo_done.1 h
    have hwhole : path.take path.length = path := congrArg Path.mk List.take_length
    obtain ⟨b, hb, rfl⟩ := hk path.length site (hwhole.symm ▸ hl)
    rw [S.account_unique ha hb]
    rfl
  | static place value inner =>
    rw [hl] at h
    obtain ⟨a, ha, rfl⟩ := h
    cases value with
    | arr raw =>
      obtain ⟨k, hk⟩ := Found.exists_levelsOf (.arr raw)
      have ha : (Plan.descend false (Found.levelsOf (.arr raw)) (.list (Found.itemsOf place raw)
        (Found.levelsOf (.arr raw)))).account S (S.account n) = some a := ha
      rw [hk] at ha
      obtain ⟨values, hvalues, hitems⟩ := Plan.account_list ha
      have hlength := hitems.length_eq
      rw [hvalues]
      simpa [Found.itemsOf, Located.value?, Value.size?] using hlength
    | obj members =>
      obtain ⟨k, hk⟩ := Found.exists_levelsOf (.obj members)
      have ha : (Plan.descend false (Found.levelsOf (.obj members)) (.mapping _
        (Found.levelsOf (.obj members)))).account S (S.account n) = some a := ha
      rw [hk] at ha
      obtain ⟨values, hvalues, -⟩ := Plan.account_mapping ha
      rw [hvalues]
      rfl
    | _ =>
      obtain rfl := Option.some.inj ha
      rfl

theorem item (hS : S.FindsIn document context)
    (h : (Plan.resolve false path).ComesTo S (S.account n) (some (.arr items)))
    (hkey : isExact key = false ∧ key ≠ contextKey) :
    (Plan.resolve false (path.append [key])).ComesTo S (S.account n) (Value.child? (.arr items) key) := by
  obtain ⟨a, ha, hv⟩ := h
  have hq : ∀ s ∈ [key], isExact s = false ∧ s ≠ contextKey := List.forall_mem_singleton.2 hkey
  obtain ⟨b, hb, hpart, -⟩ := hS.account_append ha hq false
  refine ⟨b, hb, ?_⟩
  rw [hpart.result, hv, Option.bind_some, Value.descend?]
  cases Value.child? (.arr items) key <;> rfl

/-- Where an array has no item for a key, it ends before the key exactly if the key is an index. -/
theorem pastEnd (hS : S.FindsIn document context)
    (h : (Plan.resolve false path).ComesTo S (S.account n) (some (.arr items)))
    (hkey : isExact key = false ∧ key ≠ contextKey) (hgone : Value.child? (.arr items) key = none)
    {places : List Nat} (hmem : (Numeral.index? key).isSome → path.length ∈ places) :
    (Plan.answer (Query.pastEnd (path.append [key]) places)).ComesTo S (S.account n)
      (Numeral.index? key).isSome := by
  obtain ⟨result, hk⟩ := (h.item hS hkey).exists_supplied hS
  obtain ⟨past, hcomes, hpast⟩ := Plan.comesTo_pastEnd hS fun n _ => hk n
  -- the array in the document may hold expressions, but it is as long as the one that the reading gives
  have hsize := h.sized hS hk.of_append
  obtain ⟨held, hheld, hsize⟩ := Option.bind_eq_some_iff.1 hsize
  obtain ⟨raw, rfl, hlength⟩ := Value.size?_eq_some.1 hsize
  have hsegment : (path.append [key]).segments[path.length]? = some key :=
    List.getElem?_concat_length
  have hbefore : (path.append [key]).take path.length = path := congrArg Path.mk List.take_left
  have hheld : valueAt? document context result ((path.append [key]).take path.length) =
      some (.arr raw) := by rwa [hbefore]
  have hlost : LostAt document context result (path.append [key]) path.length key (.arr raw) := by
    refine ⟨hsegment, hheld, ?_⟩
    rw [valueAt?_item hsegment hheld]
    cases hi : Numeral.index? key with
    | none => rfl
    | some i =>
      rw [Value.child?, hi, Option.bind_some, List.getElem?_eq_none_iff, ← hlength] at hgone
      exact List.getElem?_eq_none_iff.2 hgone
  rw [hlost.exists_pastAt_iff hmem, and_iff_left ⟨raw, rfl⟩, ← Bool.eq_iff_iff] at hpast
  rwa [← hpast]

end Plan.ComesTo

end Items

/-! ## References -/

namespace Query

variable {S : Setting} {document : Value} {context : Context} {here : Standpoint} {parents : Nat}
  {steps : List RefStep} {fresh : Bool} {segments : List String} {items : List Value} {e : Expr}
  {index : Value} {key : String}

/-- What is said of a path without a value is no array. -/
theorem not_comesTo_absent {path : Path} {place : Nat} :
    ¬ (absent path place segments).ComesTo S (.arr items) := by
  intro h
  obtain ⟨past, -, h⟩ := comesTo_bind.1 h
  cases past with
  | true => cases comesTo_done.1 h
  | false => exact not_comesTo_error h

/-- The context holds no arrays. -/
theorem contextValue_ne_arr (context : Context) (rest : List String) :
    contextValue context rest ≠ .arr items := by
  have hmember {key : String} {v : Value} (h : context.toMembers.lookup key = some v) : ∃ s, v = .str s := by
    obtain ⟨⟨k, s⟩, -, he⟩ := List.mem_map.1 (Assoc.mem_of_lookup h)
    exact ⟨s, (congrArg Prod.snd he).symm⟩
  intro h
  unfold contextValue at h
  cases rest with
  | nil => cases h
  | cons key rest =>
    rw [Value.descend?, Value.child?] at h
    cases hl : context.toMembers.lookup key with
    | none =>
      rw [hl] at h
      cases h
    | some v =>
      obtain ⟨s, rfl⟩ := hmember hl
      rw [hl] at h
      cases rest <;> cases h

/-- A reference that comes to an array has read it. -/
theorem reads_of_comesTo (h : (ofReference here parents steps fresh).ComesTo S (.arr items)) :
    parents ≤ here.owner.length ∧ ∃ segments, (ofSteps here steps).ComesTo S segments ∧
      ¬ (parents = 0 ∧ segments.head? = some contextKey) ∧
      S.Reads (target here parents segments) (some (.arr items)) := by
  rw [ofReference] at h
  split at h
  · exact absurd h not_comesTo_error
  · next habove =>
    refine ⟨Nat.le_of_not_lt habove, ?_⟩
    obtain ⟨segments, hsteps, h⟩ := comesTo_bind.1 h
    refine ⟨segments, hsteps, ?_⟩
    by_cases hplain : parents = 0 ∧ segments.head? = some contextKey
    · rw [follow, if_pos hplain] at h
      exact absurd (comesTo_done.1 h) (contextValue_ne_arr _ _)
    · refine ⟨hplain, ?_⟩
      rw [follow_target hplain] at h
      obtain ⟨v, hread, h⟩ := comesTo_read.1 h
      cases v with
      | none => exact absurd h not_comesTo_absent
      | some v =>
        obtain rfl := comesTo_done.1 h
        exact hread

/-- One more index gives a reference one more segment. -/
theorem comesTo_steps_index (hsteps : (ofSteps here steps).ComesTo S segments)
    (hindex : (ofExpr here e).ComesTo S index) (hkey : indexKey index = .ok key) :
    (ofSteps here (steps ++ [.at e])).ComesTo S (segments ++ [key]) := by
  induction steps generalizing segments with
  | nil =>
    rw [ofSteps] at hsteps
    obtain rfl := comesTo_done.1 hsteps
    refine comesTo_steps_at.2 ⟨index, hindex, key, hkey, [], ?_, rfl⟩
    rw [ofSteps]
    exact comesTo_done.2 rfl
  | cons step rest ih =>
    cases step with
    | key name =>
      obtain ⟨tail, htail, rfl⟩ := comesTo_steps_key.1 hsteps
      exact comesTo_steps_key.2 ⟨_, ih htail, rfl⟩
    | «at» e' =>
      obtain ⟨index', hindex', key', hkey', tail, htail, rfl⟩ := comesTo_steps_at.1 hsteps
      exact comesTo_steps_at.2 ⟨index', hindex', key', hkey', _, ih htail, rfl⟩

theorem last_mem_indexPlaces (hi : (Numeral.index? key).isSome) :
    (target here parents segments).length ∈
      indexPlaces (here.owner.length - parents) (segments ++ [key]) := by
  rw [length_target]
  refine mem_indexPlaces.2 ⟨Nat.le_add_right _ _, ?_⟩
  rwa [Nat.add_sub_cancel_left, List.getElem?_concat_length, Option.bind_some]

/-- A reference with one more index gives an item of the array that it comes to without it, and `null`
behind the end of that array. With another key in brackets it is not found. -/
theorem comesTo_indexed (hS : S.FindsIn document context)
    (h : (ofReference here parents steps fresh).ComesTo S (.arr items))
    (hindex : (ofExpr here e).ComesTo S index) (hkey : indexKey index = .ok key)
    (hsegment : isExact key = false ∧ key ≠ contextKey) :
    ((Numeral.index? key).isSome → (ofReference here parents (steps ++ [.at e]) fresh).ComesTo S
        ((Value.child? (.arr items) key).getD .null)) ∧
      (Numeral.index? key = none → ∃ segments, (ofSteps here steps).ComesTo S segments ∧
        (ofReference here parents (steps ++ [.at e]) fresh).Fails S
          (.new (.notFound ((target here parents segments).child key)))) := by
  obtain ⟨hclimbs, segments, hsteps, hplain, n, hread⟩ := reads_of_comesTo h
  have hlonger := comesTo_steps_index hsteps hindex hkey
  have hplain' : ¬ (parents = 0 ∧ (segments ++ [key]).head? = some contextKey) := by
    cases segments with
    | nil => exact fun h => hsegment.2 (Option.some.inj h.2)
    | cons => exact hplain
  have htarget : target here parents (segments ++ [key]) = (target here parents segments).append [key] :=
    target_append [key]
  have hitem : S.Reads ((target here parents segments).append [key])
      (Value.child? (.arr items) key) := ⟨n, hread.item hS hsegment⟩
  have hend (hgone : Value.child? (.arr items) key = none) :
      (pastEnd ((target here parents segments).append [key])
        (indexPlaces (here.owner.length - parents) (segments ++ [key]))).ComesTo S
          (Numeral.index? key).isSome :=
    ⟨n, hread.pastEnd hS hsegment hgone last_mem_indexPlaces⟩
  rw [ofReference_of_le hclimbs]
  constructor
  · intro hi
    refine comesTo_bind.2 ⟨_, hlonger, ?_⟩
    rw [follow_target hplain', htarget]
    cases hchild : Value.child? (.arr items) key with
    | some item =>
      rw [hchild] at hitem
      exact comesTo_read.2 ⟨_, hitem, comesTo_done.2 rfl⟩
    | none =>
      have hend := hend hchild
      rw [hchild] at hitem
      rw [hi] at hend
      exact comesTo_read.2 ⟨_, hitem, comesTo_bind.2 ⟨_, hend, comesTo_done.2 rfl⟩⟩
  · intro hi
    have hchild : Value.child? (.arr items) key = none := by rw [Value.child?, hi, Option.bind_none]
    have hend := hend hchild
    rw [hchild] at hitem
    rw [hi] at hend
    refine ⟨segments, hsteps, hlonger.fails ?_⟩
    rw [follow_target hplain', htarget]
    exact fails_read hitem (hend.fails fails_error)

end Query

namespace Tree

variable {t : Tree σ} {f : String → List Value → Except String Value} {asked : ReadOptions}
  {here : Query.Standpoint} {e : Expr} {parents : Nat} {steps : List RefStep} {fresh : Bool}
  {items : List Value} {i : Int}

/-- Every read of the expression from a place ends, and with one result, unless evaluations nest too
deep. -/
def Shows (t : Tree σ) (asked : ReadOptions) (here : Query.Standpoint) (e : Expr) (r : ReadResult) :
    Prop :=
  ∀ base text site, t.Asks base text asked site e → ⟨site.owner, site.context⟩ = here →
    (∃ r' t', t.Gives base text asked r' t') ∧
      ∀ r' t', t.Gives base text asked r' t' → r' = r ∨ t.Overdeep r'

section

variable (hp : t.options.Pure f) (ha : t.options.Answers) (hi : t.inflight = [])
  (hf : t.world.cache.Faithful (t.setting f asked.own) True)

include hp ha hi hf

theorem shows_of_comesTo {v : Value} (h : (Query.ofExpr here e).ComesTo (t.setting f asked.own) v) :
    t.Shows asked here e (.ok (some v)) := by
  rintro base text site hasks rfl
  exact ⟨exists_gives ha hi base text asked, fun r t' hg => hasks.shows hp hi hf h hg⟩

theorem shows_of_fails {error : EvalError}
    (h : (Query.ofExpr here e).Fails (t.setting f asked.own) (.new error)) :
    t.Shows asked here e (.error error) := by
  rintro base text site hasks rfl
  exact ⟨exists_gives ha hi base text asked, fun r t' hg => hasks.fails hp hi hf h hg⟩

/-- An array is indexed by a whole number in the same way as a value and by a longer reference, in its
bounds and behind them. A negative number gives `null` as an index of the value, while the reference is
not found. -/
theorem indexed_array_shows
    (harray : (Query.ofExpr here (.reference fresh parents steps)).ComesTo (t.setting f asked.own)
      (.arr items))
    (hindex : (Query.ofExpr here e).ComesTo (t.setting f asked.own) (.num (.int i)))
    (hfits : Numeral.fitsSigned i = true) :
    t.Shows asked here (.index (.reference fresh parents steps) e)
        (.ok (some ((Value.item? items i).getD .null))) ∧
      (0 ≤ i → t.Shows asked here (.reference fresh parents (steps ++ [.at e]))
        (.ok (some ((Value.item? items i).getD .null)))) ∧
      (i < 0 → ∃ segments, (Query.ofSteps here steps).ComesTo (t.setting f asked.own) segments ∧
        t.Shows asked here (.reference fresh parents (steps ++ [.at e]))
          (.error (.notFound ((Query.target here parents segments).child (toString i))))) := by
  have hkey : Query.indexKey (.num (.int i)) = .ok (toString i) := rfl
  have hsegment := And.intro (Numeral.isExact_toString_int i) (Numeral.toString_int_ne_contextKey i)
  have hnumber := Numeral.index?_toString_int hfits
  have harray' := harray
  rw [Query.ofExpr_reference] at harray'
  obtain ⟨hitem, hlost⟩ :=
    Query.comesTo_indexed (t.setting_findsIn f asked.own) harray' hindex hkey hsegment
  rw [Value.child?_toString hfits] at hitem
  refine ⟨shows_of_comesTo hp ha hi hf ?_, fun hpos => shows_of_comesTo hp ha hi hf ?_, fun hneg => ?_⟩
  · rw [Query.ofExpr]
    refine Query.comesTo_bind.2 ⟨_, harray, Query.comesTo_bind.2 ⟨_, hindex, ?_⟩⟩
    refine Query.comesTo_bind.2 ⟨_, Query.comesTo_done.2 rfl, Query.comesTo_done.2 ?_⟩
    rw [Value.child?_toString hfits]
  · rw [Query.ofExpr_reference]
    refine hitem ?_
    rw [hnumber, if_pos hpos]
    rfl
  · rw [if_neg (Int.not_le.2 hneg)] at hnumber
    obtain ⟨segments, hsteps, hfails⟩ := hlost hnumber
    refine ⟨segments, hsteps, shows_of_fails hp ha hi hf ?_⟩
    rwa [Query.ofExpr_reference]

end

/-- An array with one item, and two expressions that ask for the item before it. -/
def lettered : Value :=
  .obj [("x", .arr [.str "a"]), (".e", .str "${x[-1]}"), (".f", .str "${(x)[-1]}")]

/-- What is named is not found, what is held is `null`. -/
theorem negative_index_differs :
    ((ofDocument lettered .default ()).get .root "e" .default).2 =
        some (.error (.notFound ⟨["x", "-1"]⟩)) ∧
      ((ofDocument lettered .default ()).get .root "f" .default).2 = some (.ok (some .null)) := by
  refine ⟨?_, ?_⟩
  · cbv
  · cbv

def namedLetter : Site :=
  ⟨⟨[".e"]⟩, "${x[-1]}", .empty, []⟩

def heldLetter : Site :=
  ⟨⟨[".f"]⟩, "${(x)[-1]}", .empty, []⟩

theorem negative_index_shown :
    (∀ r t, (ofDocument lettered .default ()).Gives .root "f" .default r t → r = .ok (some .null)) ∧
      ∀ r t, (ofDocument lettered .default ()).Gives .root "e" .default r t →
        r = .error (.notFound ⟨["x", "-1"]⟩) := by
  let t : Tree Unit := ofDocument lettered .default ()
  let f : String → List Value → Except String Value := fun _ _ => .ok .null
  let minusOne : Expr := .unary .neg (.lit (.num (.int 1)))
  have hp : t.options.Pure f := ⟨rfl, nofun⟩
  have ha : t.options.Answers := nofun
  have hroom (r : ReadResult) : ¬ t.Overdeep r := by
    have hlength : (expressionPaths lettered).length = 2 := rfl
    exact fun hdeep => Nat.not_lt_of_le (hlength.trans_le (by decide)) hdeep.2
  have hnamed : t.Asks .root "e" .default namedLetter
      (.reference false 0 ([.key "x"] ++ [.at minusOne])) :=
    ⟨rfl, ⟨⟨["e"]⟩, by decide, by cbv⟩, rfl, by cbv⟩
  have hheld : t.Asks .root "f" .default heldLetter
      (.index (.reference false 0 [.key "x"]) minusOne) :=
    ⟨rfl, ⟨⟨["f"]⟩, by decide, by cbv⟩, rfl, by cbv⟩
  have harray : (Query.ofExpr ⟨.root, .empty⟩ (.reference false 0 [.key "x"])).ComesTo
      (t.setting f ReadOptions.default.own) (.arr [.str "a"]) := by
    refine ⟨0, Option.map_eq_some_iff.1 ?_⟩
    cbv
  have hindex : (Query.ofExpr ⟨.root, .empty⟩ minusOne).ComesTo (t.setting f ReadOptions.default.own)
      (.num (.int (-1))) := by
    refine ⟨0, Option.map_eq_some_iff.1 ?_⟩
    cbv
  have hsteps : (Query.ofSteps ⟨.root, .empty⟩ [.key "x"]).ComesTo
      (t.setting f ReadOptions.default.own) ["x"] := by
    refine ⟨0, Option.map_eq_some_iff.1 ?_⟩
    cbv
  obtain ⟨hvalue, -, hreference⟩ := indexed_array_shows hp ha rfl
    ⟨Cache.timely_empty, fun _ _ hl => by cases hl⟩ harray hindex (by decide)
  obtain ⟨segments, hsegments, hlost⟩ := hreference (by decide)
  obtain rfl := hsteps.unique hsegments
  exact ⟨fun r t' hg => ((hvalue _ _ _ hheld rfl).2 r t' hg).resolve_right (hroom r),
    fun r t' hg => ((hlost _ _ _ hnamed rfl).2 r t' hg).resolve_right (hroom r)⟩

end Tree

end LiveDoc

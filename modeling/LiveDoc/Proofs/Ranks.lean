import LiveDoc.Proofs.Respelling
import LiveDoc.Proofs.Sites
import Mathlib.Data.List.FinRange
import Mathlib.Data.List.Perm.Subperm

/-! # How deep evaluations nest

An expression that has an account at all has one that nests no deeper than there are expressions in
the document. For an expression that needs a certain nesting needs another one that needs one less, and
so on down; expressions that need different nestings differ in their places.
-/

namespace LiveDoc

variable {α : Type}

/-! ## Expressions that need a nesting -/

/-- A plan has the same account if the expressions that it may have evaluated have the same. -/
theorem Plan.account_of_evaluates {S : Setting} {P : Site → Prop}
    {valueOf valueOf' : Site → Option (Account Value)}
    (hval : ∀ site v, P site → valueOf site = some v → valueOf' site = some v) {p : Plan α}
    {a : Account α} (hp : p.Evaluates S P) (h : p.account S valueOf = some a) :
    p.account S valueOf' = some a := by
  induction p generalizing a with
  | done result =>
    cases result with
    | ok => exact h
    | error => cases h
  | find path next ih =>
    obtain ⟨b, hb, rfl⟩ := account_find.1 h
    exact account_find.2 ⟨b, ih _ hp hb, rfl⟩
  | evaluate site fresh next ih =>
    obtain ⟨v, hv, b, hb, rfl⟩ := account_evaluate.1 h
    exact account_evaluate.2 ⟨v, hval site v hp.1 hv, b, ih _ (hp.2 _) hb, rfl⟩
  | call name args next ih =>
    obtain ⟨v, hv, hb⟩ := account_call.1 h
    exact account_call.2 ⟨v, hv, ih v (hp v) hb⟩

namespace Setting

variable {S : Setting} {n m : Nat} {site site' : Site}

/-- An expression has an account that nests a number of other evaluations, and none that nests fewer. -/
def Ranked (S : Setting) (n : Nat) (site : Site) : Prop :=
  (S.account (n + 1) site).isSome ∧ S.account n site = none

/-- What needs another evaluation needs one that needs one less. -/
theorem Ranked.exists_pred (h : S.Ranked (n + 1) site) :
    ∃ site', S.Locates site' ∧ S.Ranked n site' := by
  obtain ⟨a, ha⟩ := Option.isSome_iff_exists.1 h.1
  obtain ⟨b, hb, -⟩ := account_succ.1 ha
  by_contra hno
  have hlower (site' : Site) (v : Account Value) (hs : S.Locates site')
      (hv : S.account (n + 1) site' = some v) : S.account n site' = some v := by
    cases hn : S.account n site' with
    | none => exact absurd ⟨site', hs, Option.isSome_of_eq_some hv, hn⟩ hno
    | some u => rw [account_unique hn hv]
  have hb := Plan.account_of_evaluates hlower (Plan.evaluates_render site) hb
  have hsite : S.account (n + 1) site = some _ := account_succ.2 ⟨b, hb, rfl⟩
  rw [h.2] at hsite
  cases hsite

/-- Every smaller nesting is needed by some expression. -/
theorem Ranked.exists_le (hs : S.Locates site) (h : S.Ranked n site) (hm : m ≤ n) :
    ∃ site', S.Locates site' ∧ S.Ranked m site' := by
  induction hm using Nat.decreasingInduction with
  | self => exact ⟨site, hs, h⟩
  | of_succ k _ ih =>
    obtain ⟨site', -, hr⟩ := ih
    exact hr.exists_pred

theorem Ranked.unique (h : S.Ranked n site) (h' : S.Ranked m site) : n = m := by
  have hle {n m : Nat} (h : S.Ranked n site) (h' : S.Ranked m site) : n ≤ m := by
    by_contra hlt
    obtain ⟨a, ha⟩ := Option.isSome_iff_exists.1 h'.1
    have hnone := h.2
    rw [account_le (Nat.lt_of_not_le hlt) ha] at hnone
    cases hnone
  exact Nat.le_antisymm (hle h h') (hle h' h)

end Setting

/-! ## The places of expressions -/

section Survey

variable {path p : Path} {members : Members} {items : List Value}

theorem mem_expressionsOfMembers_iff : p ∈ expressionsOfMembers path members ↔
    ∃ key child, (key, child) ∈ members ∧
      p ∈ if isExpression key child then [path.child key] else expressionsAt (path.child key) child := by
  induction members with
  | nil => simp [expressionsOfMembers]
  | cons e rest ih =>
    obtain ⟨k, v⟩ := e
    rw [expressionsOfMembers, List.mem_append, ih]
    constructor
    · rintro (h | ⟨key, child, hm, hp⟩)
      · exact ⟨k, v, List.mem_cons_self, h⟩
      · exact ⟨key, child, List.mem_cons_of_mem _ hm, hp⟩
    · rintro ⟨key, child, hm, hp⟩
      rcases List.mem_cons.1 hm with he | hm
      · cases he
        exact .inl hp
      · exact .inr ⟨key, child, hm, hp⟩

theorem mem_expressionsOfItems_iff {start : Nat} : p ∈ expressionsOfItems path start items ↔
    ∃ i child, items[i]? = some child ∧ p ∈ expressionsAt (path.child (toString (start + i))) child := by
  induction items generalizing start with
  | nil => simp [expressionsOfItems]
  | cons v rest ih =>
    rw [expressionsOfItems, List.mem_append, ih]
    constructor
    · rintro (h | ⟨i, child, hi, hp⟩)
      · exact ⟨0, v, rfl, h⟩
      · exact ⟨i + 1, child, hi, by rwa [← Nat.add_assoc, Nat.add_right_comm]⟩
    · rintro ⟨_ | i, child, hi, hp⟩
      · cases hi
        exact .inl hp
      · exact .inr ⟨i, child, hi, by rwa [← Nat.add_assoc, Nat.add_right_comm] at hp⟩

variable {document current : Value} {context context' : Context} {place cplace : Path}
  {segments : List String} {site : Site}

/-- A walk from a value comes to an expression that a survey of the value lists, but for the spelling of
indices. -/
theorem surveyed_of_walk (hl : locate document place context = .static place current context')
    (hp : place.Respelled document context cplace)
    (h : walk current place context' segments = .expression site) :
    ∃ c ∈ expressionsAt cplace current, site.path.Respelled document context c := by
  induction segments generalizing current place cplace context' with
  | nil => cases h
  | cons segment rest ih =>
    rcases walk_cons_cases current context' segment with he | ⟨key, text, he, hk⟩ | ⟨key, value, he, hx⟩
    · rw [walk_cons_none he] at h
      cases h
    · rw [walk_cons_expression he hk] at h
      cases h
      cases current with
      | obj members =>
        have hx : isExpression key (.str text) = true := Bool.and_eq_true_iff.2 ⟨hk, rfl⟩
        refine ⟨cplace.child key, mem_expressionsOfMembers_iff.2 ⟨key, .str text, ?_, ?_⟩, hp.child key⟩
        · exact Assoc.mem_of_lookup (enter?_obj.1 he).2
        · rw [if_pos hx]
          exact List.mem_singleton_self _
      | arr items =>
        obtain ⟨i, hi, -⟩ := Option.bind_eq_some_iff.1 (enter?_child he).1
        rw [(isExact_eq_false (isExact_of_index? hi)).2] at hk
        cases hk
      | _ => cases (enter?_child he).1
    · rw [walk_cons_static he hx] at h
      have hl' : locate document (place.child key) context =
          .static (place.child key) value (context'.merge (Context.own value)) := by
        rw [Path.Respelled.locate_child, hl]
        exact walk_cons_static (enter?_child he).2.1 hx []
      cases current with
      | obj members =>
        obtain ⟨c, hc, hsite⟩ := ih hl' (hp.child key) h
        refine ⟨c, mem_expressionsOfMembers_iff.2 ⟨key, value, ?_, ?_⟩, hsite⟩
        · exact Assoc.mem_of_lookup (enter?_obj.1 he).2
        · rwa [if_neg (Bool.eq_false_iff.1 hx)]
      | arr items =>
        obtain ⟨i, hi, hitem⟩ := Option.bind_eq_some_iff.1 (enter?_child he).1
        have hcanonical := Numeral.index?_toString (Numeral.fitsUnsigned_of_index? hi)
        obtain ⟨c, hc, hsite⟩ := ih hl' (hp.item hl hi hcanonical) h
        refine ⟨c, mem_expressionsOfItems_iff.2 ⟨i, value, hitem, ?_⟩, hsite⟩
        rwa [Nat.zero_add]
      | _ => cases (enter?_child he).1

theorem surveyed_of_locate (h : locate document place context = .expression site) :
    ∃ c ∈ expressionPaths document, site.path.Respelled document context c := by
  have hroot : locate document .root context =
      .static .root document (context.merge (Context.own document)) := rfl
  exact surveyed_of_walk hroot (.refl _) h

end Survey

/-! ## The bound -/

theorem Path.Respelled.symm {document : Value} {context : Context} {p p' : Path}
    (h : p.Respelled document context p') : p'.Respelled document context p := by
  induction h with
  | refl => exact .refl _
  | child _ segment ih => exact ih.child segment
  | @item p p' _ _ _ _ _ _ h array index index' ih =>
    have hl := h.located
    rw [array] at hl
    generalize hl' : locate document p' context = l at hl
    cases hl with
    | static => exact ih.item hl' index' index

namespace Setting

variable {S : Setting} {document : Value} {context : Context} {n m : Nat} {site site' : Site}

/-- Under another spelling of the place of an expression lies one that has an account for the same
nestings. -/
theorem FindsIn.exists_respelled (hS : S.FindsIn document context) {p c : Path}
    (hl : locate document p context = .expression site)
    (h : site.path.Respelled document context c) :
    ∃ site', locate document c context = .expression site' ∧
      ∀ n, (S.account n site).isSome ↔ (S.account n site').isSome := by
  have hR := Path.Respelled.parallel document context
  have hfind (p p' : Path) (hp : p.Respelled document context p') :
      (S.find p).Alike (Path.Respelled document context) (S.find p') := hp.found hS
  have hsome {s s' : Site} (hs : s.Alike (Path.Respelled document context) s') (n : Nat)
      (hn : (S.account n s).isSome) : (S.account n s').isSome := by
    obtain ⟨a, ha⟩ := Option.isSome_iff_exists.1 hn
    obtain ⟨b, hb, -⟩ := account_alike hR hfind hs ha
    exact Option.isSome_of_eq_some hb
  have halike := h.located
  rw [(locate_site hl).2.1] at halike
  generalize hc : locate document c context = l at halike
  cases halike with
  | @expression _ site' sites =>
    have hback : site'.Alike (Path.Respelled document context) { site with rest := [] } :=
      ⟨sites.path.symm, sites.text.symm, sites.context.symm, sites.rest.symm⟩
    refine ⟨site', rfl, fun n => ?_⟩
    have hsame : site.Same { site with rest := [] } := ⟨rfl, rfl, rfl⟩
    rw [account_congr hsame n]
    exact ⟨hsome sites n, hsome hback n⟩

theorem FindsIn.locates_iff (hS : S.FindsIn document context) :
    S.Locates site ↔ ∃ p, locate document p context = .expression site := by
  refine exists_congr fun p => ?_
  rw [hS]
  cases hl : locate document p context with
  | missing => simp [Found.ofLocated]
  | expression site' => simp [Found.ofLocated]
  | static path value context => cases value <;> simp [Found.ofLocated]

/-- The places of expressions of which each needs a nesting of its own. -/
theorem FindsIn.exists_places (hS : S.FindsIn document context) (hs : S.Locates site)
    (h : S.Ranked n site) : ∃ places : List Path, places.Nodup ∧ places.length = n + 1 ∧
      ∀ c ∈ places, c ∈ expressionPaths document ∧ ∃ site',
        locate document c context = .expression site' ∧ ∃ m, (S.account m site').isSome := by
  have hplace (m : Fin (n + 1)) : ∃ c ∈ expressionPaths document, ∃ site',
      locate document c context = .expression site' ∧ S.Ranked m site' := by
    obtain ⟨site₁, hs₁, hr⟩ := h.exists_le hs (Nat.le_of_lt_succ m.isLt)
    obtain ⟨p, hp⟩ := hS.locates_iff.1 hs₁
    obtain ⟨c, hc, hrespelled⟩ := surveyed_of_locate hp
    obtain ⟨site', hsite', hiff⟩ := hS.exists_respelled hp hrespelled
    refine ⟨c, hc, site', hsite', (hiff _).1 hr.1, ?_⟩
    rw [← Option.not_isSome_iff_eq_none, ← hiff, hr.2]
    exact Bool.false_ne_true
  choose place hmem site' hsite' hr using hplace
  have hinjective : Function.Injective place := by
    intro m m' hm
    have hsame : site' m = site' m' := by
      have h := hsite' m
      rw [hm, hsite' m'] at h
      exact (Located.expression.inj h).symm
    have hr' := hr m
    rw [hsame] at hr'
    exact Fin.ext (hr'.unique (hr m'))
  refine ⟨List.ofFn place, List.nodup_ofFn.2 hinjective, List.length_ofFn, fun c hc => ?_⟩
  obtain ⟨m, rfl⟩ := (List.mem_ofFn' place c).1 hc
  exact ⟨hmem m, site' m, hsite' m, _, (hr m).1⟩

/-- An expression that has an account has one that nests no deeper than there are expressions. -/
theorem FindsIn.account_surveyed (hS : S.FindsIn document context) (hs : S.Locates site)
    {a : Account Value} (ha : S.account n site = some a) :
    S.account (expressionPaths document).length site = some a := by
  obtain ⟨k, -, hk, hnone⟩ := account_least ha
  obtain ⟨places, hnodup, hlength, hplaces⟩ :=
    hS.exists_places hs ⟨Option.isSome_of_eq_some hk, hnone⟩
  have hle := (hnodup.subperm fun c hc => (hplaces c hc).1).length_le
  exact account_le (hlength ▸ hle) hk

/-- An expression that has an account leaves one nesting to spare where some expression has none. -/
theorem FindsIn.account_spared (hS : S.FindsIn document context) (hs : S.Locates site)
    {a : Account Value} (ha : S.account n site = some a) (hs' : S.Locates site')
    (hnone : ∀ m, S.account m site' = none) :
    S.account ((expressionPaths document).length - 1) site = some a := by
  obtain ⟨k, -, hk, hleast⟩ := account_least ha
  obtain ⟨places, hnodup, hlength, hplaces⟩ :=
    hS.exists_places hs ⟨Option.isSome_of_eq_some hk, hleast⟩
  obtain ⟨p, hp⟩ := hS.locates_iff.1 hs'
  obtain ⟨c, hc, hrespelled⟩ := surveyed_of_locate hp
  obtain ⟨lost, hlost, hiff⟩ := hS.exists_respelled hp hrespelled
  have hfree : c ∉ places := by
    intro hmem
    obtain ⟨-, found, hfound, m, hm⟩ := hplaces c hmem
    obtain rfl := Located.expression.inj (hlost.symm.trans hfound)
    rw [← hiff, hnone] at hm
    cases hm
  have hsub : c :: places ⊆ expressionPaths document :=
    List.cons_subset.2 ⟨hc, fun c hc => (hplaces c hc).1⟩
  have hle := ((List.nodup_cons.2 ⟨hfree, hnodup⟩).subperm hsub).length_le
  rw [List.length_cons, hlength] at hle
  exact account_le (Nat.le_sub_one_of_lt hle) hk

end Setting

end LiveDoc

import LiveDoc.Proofs.Account
import Mathlib.Data.List.Forall2

/-! # Plans from places that stand for one another

An expression asks for places seen from its own. Where two places stand for one another, as far as
paths that go on from them or climb from them tell, the expression comes to the same from both.
-/

namespace LiveDoc

variable {α β : Type}

/-- What paths that stand for one another share: what they name as an index, and how long they
are. -/
structure Path.Parallel (R : Path → Path → Prop) : Prop where
  append : ∀ {p p'}, R p p' → ∀ more, R (p.append more) (p'.append more)
  take : ∀ {p p'}, R p p' → ∀ n, R (p.take n) (p'.take n)
  length : ∀ {p p'}, R p p' → p.length = p'.length
  index : ∀ {p p' : Path}, R p p' → ∀ n : Nat,
    p.segments[n]?.bind Numeral.index? = p'.segments[n]?.bind Numeral.index?

/-- Two queries with the same questions, but for paths that stand for one another. -/
inductive Query.Alike (R : Path → Path → Prop) : Query α → Query α → Prop where
  | ok (a : α) : Query.Alike R (.done (.ok a)) (.done (.ok a))
  | error {fault fault' : Fault} (missing : fault.missing = fault'.missing) :
    Query.Alike R (.done (.error fault)) (.done (.error fault'))
  | read {path path' : Path} (places : R path path') (fresh : Bool)
    {next next' : Option Value → Query α} (rest : ∀ v, (next v).Alike R (next' v)) :
    Query.Alike R (.read path fresh next) (.read path' fresh next')
  | measure {path path' : Path} (places : R path path') {next next' : Option Nat → Query α}
    (rest : ∀ n, (next n).Alike R (next' n)) :
    Query.Alike R (.measure path next) (.measure path' next')
  | call (name : String) (args : List Value) {next next' : Value → Query α}
    (rest : ∀ v, (next v).Alike R (next' v)) :
    Query.Alike R (.call name args next) (.call name args next')

namespace Query

variable {R : Path → Path → Prop}

theorem Alike.bind {q q' : Query α} {f f' : α → Query β} (hq : q.Alike R q')
    (hf : ∀ a, (f a).Alike R (f' a)) : (q.bind f).Alike R (q'.bind f') := by
  induction hq with
  | ok a => exact hf a
  | error missing => exact .error missing
  | read places fresh _ ih => exact .read places fresh ih
  | measure places _ ih => exact .measure places ih
  | call name args _ ih => exact .call name args ih

theorem alike_lift (r : Except EvalError α) : (lift r).Alike R (lift r) := by
  cases r with
  | ok a => exact .ok a
  | error e => exact .error rfl

theorem Alike.orNull {q q' : Query Value} (h : q.Alike R q') : (orNull q).Alike R (orNull q') := by
  induction h with
  | ok a => exact .ok a
  | @error fault fault' missing =>
    simp only [Query.orNull, ← missing]
    split
    · exact .ok _
    · exact .error missing
  | read places fresh _ ih => exact .read places fresh ih
  | measure places _ ih => exact .measure places ih
  | call name args _ ih => exact .call name args ih

/-- The same expression, seen from places that stand for one another. -/
structure Standpoint.Alike (R : Path → Path → Prop) (here here' : Standpoint) : Prop where
  owner : R here.owner here'.owner
  context : here.context = here'.context

variable {here here' : Standpoint}

theorem alike_pastEnd (hR : Path.Parallel R) {path path' : Path} (hp : R path path')
    (places : List Nat) : (pastEnd path places).Alike R (pastEnd path' places) := by
  induction places with
  | nil => exact .ok false
  | cons place places ih =>
    unfold pastEnd
    rw [hR.index hp]
    split
    · exact ih
    · refine .measure (hR.take hp place) fun n => ?_
      cases n with
      | none => exact ih
      | some size =>
        show (ite _ _ _ : Query Bool).Alike R (ite _ _ _)
        split
        · exact .ok true
        · exact ih

theorem alike_follow (hR : Path.Parallel R) (h : here.Alike R here') (parents : Nat)
    (segments : List String) (fresh : Bool) : (follow here parents segments fresh).Alike R
      (follow here' parents segments fresh) := by
  unfold follow
  rw [h.context, hR.length h.owner]
  split
  · exact .ok _
  · have hbase := hR.take h.owner (here'.owner.length - parents)
    have hpath := hR.append hbase segments
    refine .read hpath fresh fun v => ?_
    cases v with
    | some v => exact .ok v
    | none =>
      rw [hR.length hbase]
      refine (alike_pastEnd hR hpath _).bind fun past => ?_
      cases past with
      | true => exact .ok _
      | false => exact .error rfl

theorem alike_callNamed (h : here.Alike R here') (name : String) (args : List Value) :
    (callNamed here name args).Alike R (callNamed here' name args) := by
  unfold callNamed
  rw [h.context]
  split
  · exact alike_lift _
  · exact .call name args fun v => .ok v

mutual

/-- An expression comes to the same from places that stand for one another. -/
theorem alike_ofExpr (hR : Path.Parallel R) (h : here.Alike R here') :
    ∀ e : Expr, (ofExpr here e).Alike R (ofExpr here' e)
  | .lit v => by
    unfold ofExpr
    exact .ok v
  | .template parts => by
    unfold ofExpr
    exact (alike_ofTemplate hR h parts).bind fun v => .ok _
  | .array items => by
    unfold ofExpr
    exact (alike_ofExprs hR h items).bind fun vs => .ok _
  | .object entries => by
    unfold ofExpr
    exact (alike_ofEntries hR h entries).bind fun es => .ok _
  | .ref parents steps => by
    unfold ofExpr
    exact alike_ofReference hR h parents steps false
  | .fresh parents steps => by
    unfold ofExpr
    exact alike_ofReference hR h parents steps true
  | .call name args => by
    unfold ofExpr
    exact (alike_ofExprs hR h args).bind fun vs => alike_callNamed h name vs
  | .unary op operand => by
    unfold ofExpr
    exact (alike_ofExpr hR h operand).bind fun v => alike_lift _
  | .binary op left right => by
    unfold ofExpr
    exact (alike_ofExpr hR h left).bind fun l => (alike_ofExpr hR h right).bind fun r => alike_lift _
  | .logical op left right => by
    unfold ofExpr
    have hrest (l : Value) : Alike R (if settles op l then pure l else ofExpr here right)
        (if settles op l then pure l else ofExpr here' right) := by
      split
      · exact .ok l
      · exact alike_ofExpr hR h right
    cases op with
    | coalesce => exact (alike_ofExpr hR h left).orNull.bind hrest
    | and | or => exact (alike_ofExpr hR h left).bind hrest
  | .conditional condition yes no => by
    unfold ofExpr
    refine (alike_ofExpr hR h condition).bind fun c => ?_
    split
    · exact alike_ofExpr hR h yes
    · exact alike_ofExpr hR h no
  | .member object key => by
    unfold ofExpr
    exact (alike_ofExpr hR h object).bind fun v => .ok _
  | .index object index => by
    unfold ofExpr
    exact (alike_ofExpr hR h object).bind fun v => (alike_ofExpr hR h index).bind fun i =>
      (alike_lift _).bind fun key => .ok _

theorem alike_ofTemplate (hR : Path.Parallel R) (h : here.Alike R here') :
    ∀ parts : List Part, (ofTemplate here parts).Alike R (ofTemplate here' parts)
  | [.span e] => by
    unfold ofTemplate
    exact alike_ofExpr hR h e
  | [] => by
    unfold ofTemplate
    exact (alike_ofParts hR h []).bind fun s => .ok _
  | .text s :: rest => by
    unfold ofTemplate
    exact (alike_ofParts hR h (.text s :: rest)).bind fun s => .ok _
  | .span e :: part :: rest => by
    unfold ofTemplate
    exact (alike_ofParts hR h (.span e :: part :: rest)).bind fun s => .ok _

theorem alike_ofParts (hR : Path.Parallel R) (h : here.Alike R here') :
    ∀ parts : List Part, (ofParts here parts).Alike R (ofParts here' parts)
  | [] => by
    unfold ofParts
    exact .ok ""
  | .text s :: rest => by
    unfold ofParts
    exact (alike_ofParts hR h rest).bind fun t => .ok _
  | .span e :: rest => by
    unfold ofParts
    exact (alike_ofExpr hR h e).bind fun v => (alike_ofParts hR h rest).bind fun t => .ok _

theorem alike_ofExprs (hR : Path.Parallel R) (h : here.Alike R here') :
    ∀ es : List Expr, (ofExprs here es).Alike R (ofExprs here' es)
  | [] => by
    unfold ofExprs
    exact .ok []
  | e :: rest => by
    unfold ofExprs
    exact (alike_ofExpr hR h e).bind fun v => (alike_ofExprs hR h rest).bind fun vs => .ok _

theorem alike_ofEntries (hR : Path.Parallel R) (h : here.Alike R here') :
    ∀ entries : List (String × Expr), (ofEntries here entries).Alike R (ofEntries here' entries)
  | [] => by
    unfold ofEntries
    exact .ok []
  | (key, e) :: rest => by
    unfold ofEntries
    exact (alike_ofExpr hR h e).bind fun v => (alike_ofEntries hR h rest).bind fun es => .ok _

theorem alike_ofSteps (hR : Path.Parallel R) (h : here.Alike R here') :
    ∀ steps : List RefStep, (ofSteps here steps).Alike R (ofSteps here' steps)
  | [] => by
    unfold ofSteps
    exact .ok []
  | .key name :: rest => by
    unfold ofSteps
    exact (alike_ofSteps hR h rest).bind fun segments => .ok _
  | .at e :: rest => by
    unfold ofSteps
    exact (alike_ofExpr hR h e).bind fun v => (alike_lift _).bind fun key =>
      (alike_ofSteps hR h rest).bind fun segments => .ok _

theorem alike_ofReference (hR : Path.Parallel R) (h : here.Alike R here') (parents : Nat)
    (steps : List RefStep) (fresh : Bool) : (ofReference here parents steps fresh).Alike R
      (ofReference here' parents steps fresh) := by
  unfold ofReference
  rw [hR.length h.owner]
  split
  · exact .error rfl
  · exact (alike_ofSteps hR h steps).bind fun segments => alike_follow hR h parents segments fresh

end

end Query

/-! ## Plans -/

/-- The same expression at places that stand for one another. -/
structure Site.Alike (R : Path → Path → Prop) (site site' : Site) : Prop where
  path : R site.path site'.path
  text : site.text = site'.text
  context : site.context = site'.context
  rest : site.rest = site'.rest

/-- The same was found, but for places that stand for one another. -/
inductive Found.Alike (R : Path → Path → Prop) : Found → Found → Prop where
  | missing : Found.Alike R .missing .missing
  | scalar (v : Value) : Found.Alike R (.scalar v) (.scalar v)
  | mapping {slots slots' : List (String × Path)}
    (places : List.Forall₂ (fun s s' => s.1 = s'.1 ∧ R s.2 s'.2) slots slots') (levels : Nat) :
    Found.Alike R (.mapping slots levels) (.mapping slots' levels)
  | list {items items' : List Path} (places : List.Forall₂ R items items') (levels : Nat) :
    Found.Alike R (.list items levels) (.list items' levels)
  | expression {site site' : Site} (sites : site.Alike R site') :
    Found.Alike R (.expression site) (.expression site')

/-- Two plans with the same steps, but for places that stand for one another. The second may go on
where the first fails. -/
inductive Plan.Alike (R : Path → Path → Prop) : Plan α → Plan α → Prop where
  | ok (a : α) : Plan.Alike R (.done (.ok a)) (.done (.ok a))
  | error (fault : Fault) (p : Plan α) : Plan.Alike R (.done (.error fault)) p
  | find {path path' : Path} (places : R path path') {next next' : Found → Plan α}
    (rest : ∀ found found', found.Alike R found' → (next found).Alike R (next' found')) :
    Plan.Alike R (.find path next) (.find path' next')
  | evaluate {site site' : Site} (sites : site.Alike R site') (fresh : Bool)
    {next next' : Value → Plan α} (rest : ∀ v, (next v).Alike R (next' v)) :
    Plan.Alike R (.evaluate site fresh next) (.evaluate site' fresh next')
  | call (name : String) (args : List Value) {next next' : Value → Plan α}
    (rest : ∀ v, (next v).Alike R (next' v)) :
    Plan.Alike R (.call name args next) (.call name args next')

theorem Site.owner_eq_take (site : Site) : site.owner = site.path.take (site.path.length - 1) := by
  rw [owner, Path.parent?, Path.take, Path.length, ← List.dropLast_eq_take]
  split
  · next h => simp [List.isEmpty_iff.1 h, Path.root]
  · rfl

namespace Plan

variable {R : Path → Path → Prop}

theorem Alike.bind {p p' : Plan α} {f f' : α → Plan β} (hp : p.Alike R p')
    (hf : ∀ a, (f a).Alike R (f' a)) : (p.bind f).Alike R (p'.bind f') := by
  induction hp with
  | ok a => exact hf a
  | error fault p => exact .error fault _
  | find places _ ih => exact .find places ih
  | evaluate sites fresh _ ih => exact .evaluate sites fresh ih
  | call name args _ ih => exact .call name args ih

theorem alike_gather {γ γ' : Type} {Q : γ → γ' → Prop} {item : γ → Plan β} {item' : γ' → Plan β}
    (h : ∀ c c', Q c c' → (item c).Alike R (item' c')) {cs : List γ} {cs' : List γ'}
    (hcs : List.Forall₂ Q cs cs') : (gather item cs).Alike R (gather item' cs') := by
  induction hcs with
  | nil => exact .ok []
  | cons hc _ ih => exact (h _ _ hc).bind fun b => ih.bind fun bs => .ok _

theorem alike_descend (fresh : Bool) (levels : Nat) {found found' : Found}
    (h : found.Alike R found') : (descend fresh levels found).Alike R (descend fresh levels found') := by
  induction levels generalizing found found' with
  | zero =>
    cases h with
    | missing | mapping | list => exact .ok none
    | scalar v => exact .ok (some v)
    | expression sites =>
      refine .evaluate sites fresh fun v => ?_
      rw [sites.rest]
      exact .ok _
  | succ levels ih =>
    cases h with
    | missing => exact .ok none
    | scalar v => exact .ok (some v)
    | mapping places =>
      refine Alike.bind (alike_gather (fun slot slot' hs => ?_) places) fun members => .ok _
      obtain ⟨name, path⟩ := slot
      obtain ⟨name', path'⟩ := slot'
      obtain ⟨rfl, hp⟩ := hs
      exact Alike.bind (.find hp fun _ _ => ih) fun v => .ok _
    | list places =>
      refine Alike.bind (alike_gather (fun path path' hp => ?_) places) fun values => .ok _
      exact Alike.bind (.find hp fun _ _ => ih) fun v => .ok _
    | expression sites =>
      refine .evaluate sites fresh fun v => ?_
      rw [sites.rest]
      exact .ok _

theorem alike_resolve (fresh : Bool) {path path' : Path} (h : R path path') :
    (resolve fresh path).Alike R (resolve fresh path') := by
  refine .find h fun found found' hf => ?_
  have hl : found.levels = found'.levels := by cases hf <;> rfl
  rw [hl]
  exact alike_descend fresh _ hf

theorem alike_measure {path path' : Path} (h : R path path') :
    (measure path).Alike R (measure path') := by
  refine .find h fun found found' hf => ?_
  cases hf with
  | missing | scalar | mapping => exact .ok none
  | list places =>
    dsimp only
    rw [places.length_eq]
    exact .ok _
  | expression sites =>
    refine .evaluate sites false fun v => ?_
    rw [sites.rest]
    split <;> exact .ok _

theorem alike_answer {q q' : Query α} (h : q.Alike R q') : (answer q).Alike R (answer q') := by
  induction h with
  | ok a => exact .ok a
  | error missing => exact .error _ _
  | read places fresh _ ih => exact (alike_resolve fresh places).bind ih
  | measure places _ ih => exact (alike_measure places).bind ih
  | call name args _ ih => exact .call name args ih

theorem alike_render (hR : Path.Parallel R) {site site' : Site} (h : site.Alike R site') :
    (render site).Alike R (render site') := by
  unfold render
  rw [h.text]
  split
  · exact .error _ _
  · have howner : R site.owner site'.owner := by
      rw [Site.owner_eq_take, Site.owner_eq_take, hR.length h.path]
      exact hR.take h.path _
    exact alike_answer (Query.alike_ofTemplate hR ⟨howner, h.context⟩ _)

/-- A plan comes to what a plan like it comes to. -/
theorem Alike.account {S : Setting} (hfind : ∀ path path', R path path' →
      (S.find path).Alike R (S.find path'))
    {valueOf : Site → Option (Account Value)}
    (hval : ∀ site site' v, site.Alike R site' → valueOf site = some v →
      ∃ v', valueOf site' = some v' ∧ v'.result = v.result)
    {p p' : Plan α} (h : p.Alike R p') {a : Account α} (ha : p.account S valueOf = some a) :
    ∃ b, p'.account S valueOf = some b ∧ b.result = a.result := by
  induction h generalizing a with
  | ok => exact ⟨a, ha, rfl⟩
  | error => cases ha
  | find places _ ih =>
    obtain ⟨b, hb, rfl⟩ := account_find.1 ha
    obtain ⟨c, hc, hr⟩ := ih _ _ (hfind _ _ places) hb
    exact ⟨_, account_find.2 ⟨c, hc, rfl⟩, hr⟩
  | evaluate sites _ _ ih =>
    obtain ⟨v, hv, b, hb, rfl⟩ := account_evaluate.1 ha
    obtain ⟨v', hv', hvr⟩ := hval _ _ v sites hv
    obtain ⟨c, hc, hr⟩ := ih _ hb
    exact ⟨_, account_evaluate.2 ⟨v', hv', c, hvr ▸ hc, rfl⟩, hr⟩
  | call name args _ ih =>
    obtain ⟨v, hv, hb⟩ := account_call.1 ha
    obtain ⟨c, hc, hr⟩ := ih v hb
    exact ⟨c, account_call.2 ⟨v, hv, hc⟩, hr⟩

end Plan

/-- An expression comes to the same at places that stand for one another. -/
theorem Setting.account_alike {S : Setting} {R : Path → Path → Prop} (hR : Path.Parallel R)
    (hfind : ∀ path path', R path path' → (S.find path).Alike R (S.find path')) {n : Nat}
    {site site' : Site} (h : site.Alike R site') {a : Account Value}
    (ha : S.account n site = some a) : ∃ b, S.account n site' = some b ∧ b.result = a.result := by
  induction n generalizing site site' a with
  | zero => cases ha
  | succ n ih =>
    obtain ⟨b, hb, rfl⟩ := account_succ.1 ha
    obtain ⟨c, hc, hr⟩ := (Plan.alike_render hR h).account hfind (fun _ _ _ hs hv => ih hs hv) hb
    exact ⟨_, account_succ.2 ⟨c, hc, rfl⟩, hr⟩

end LiveDoc

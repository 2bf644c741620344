import LiveDoc.Proofs.Parts
import LiveDoc.Proofs.Ranks
import LiveDoc.Proofs.Reading

/-! # What queries come to

Without memory a query comes to a value or fails of itself, or an expression that it needs does neither.
Queries in a row come to what the last of them comes to. A read of an expression shows what its query
comes to, and its failure, unless evaluations nest too deep.
-/

namespace LiveDoc

variable {σ α β γ : Type}

/-! ## Plans -/

namespace Plan

theorem bind_assoc (p : Plan α) (f : α → Plan β) (g : β → Plan γ) :
    (p.bind f).bind g = p.bind fun a => (f a).bind g := by
  induction p with
  | done result => cases result <;> rfl
  | find path next ih => exact congrArg (Plan.find path) (funext ih)
  | evaluate site fresh next ih => exact congrArg (Plan.evaluate site fresh) (funext ih)
  | call name args next ih => exact congrArg (Plan.call name args) (funext ih)

/-- The answer to queries in a row is that to the first, and then to the next. -/
theorem answer_bind (q : Query α) (f : α → Query β) :
    answer (q.bind f) = (answer q).bind fun a => answer (f a) := by
  induction q with
  | done result => cases result <;> rfl
  | read path fresh next ih =>
    show (resolve fresh path).bind (fun v => answer ((next v).bind f)) = _
    rw [funext ih, ← bind_assoc]
    rfl
  | measure path next ih =>
    show (measure path).bind (fun n => answer ((next n).bind f)) = _
    rw [funext ih, ← bind_assoc]
    rfl
  | call name args next ih => exact congrArg (Plan.call name args) (funext ih)

variable {S : Setting} {valueOf valueOf' : Site → Option (Account Value)} {fault : Fault}

/-- A plan has an account with a value. -/
def ComesTo (S : Setting) (valueOf : Site → Option (Account Value)) (p : Plan α) (v : α) : Prop :=
  ∃ a, p.account S valueOf = some a ∧ a.result = v

theorem comesTo_done {a v : α} : (Plan.done (.ok a)).ComesTo S valueOf v ↔ a = v := by
  simp [ComesTo, account]

theorem comesTo_find {path : Path} {next : Found → Plan α} {v : α} :
    (Plan.find path next).ComesTo S valueOf v ↔ (next (S.find path)).ComesTo S valueOf v := by
  constructor
  · rintro ⟨_, ha, hv⟩
    obtain ⟨b, hb, rfl⟩ := account_find.1 ha
    exact ⟨b, hb, hv⟩
  · rintro ⟨b, hb, hv⟩
    exact ⟨_, account_find.2 ⟨b, hb, rfl⟩, hv⟩

theorem comesTo_evaluate {site : Site} {fresh : Bool} {next : Value → Plan α} {v : α} :
    (Plan.evaluate site fresh next).ComesTo S valueOf v ↔
      ∃ a, valueOf site = some a ∧ (next a.result).ComesTo S valueOf v := by
  constructor
  · rintro ⟨_, ha, hv⟩
    obtain ⟨a, hsite, b, hb, rfl⟩ := account_evaluate.1 ha
    exact ⟨a, hsite, b, hb, hv⟩
  · rintro ⟨a, hsite, b, hb, hv⟩
    exact ⟨_, account_evaluate.2 ⟨a, hsite, b, hb, rfl⟩, hv⟩

theorem comesTo_bind {p : Plan α} {f : α → Plan β} {v : β} :
    (p.bind f).ComesTo S valueOf v ↔ ∃ a, p.ComesTo S valueOf a ∧ (f a).ComesTo S valueOf v := by
  constructor
  · rintro ⟨_, hc, hv⟩
    obtain ⟨a, ha, b, hb, rfl⟩ := account_bind.1 hc
    exact ⟨_, ⟨a, ha, rfl⟩, b, hb, hv⟩
  · rintro ⟨_, ⟨a, ha, rfl⟩, b, hb, hv⟩
    exact ⟨_, account_bind.2 ⟨a, ha, b, hb, rfl⟩, hv⟩

theorem ComesTo.unique {p : Plan α} {v v' : α} (h : p.ComesTo S valueOf v)
    (h' : p.ComesTo S valueOf v') : v = v' := by
  obtain ⟨a, ha, rfl⟩ := h
  obtain ⟨b, hb, rfl⟩ := h'
  rw [Option.some.inj (ha.symm.trans hb)]

theorem ComesTo.mono (hval : ∀ site v, valueOf site = some v → valueOf' site = some v) {p : Plan α}
    {v : α} (h : p.ComesTo S valueOf v) : p.ComesTo S valueOf' v := by
  obtain ⟨a, ha, hv⟩ := h
  exact ⟨a, account_mono hval ha, hv⟩

/-- A plan fails, but not in an expression that it evaluates. -/
inductive Fails (S : Setting) (valueOf : Site → Option (Account Value)) (fault : Fault) :
    Plan α → Prop where
  | done : Fails S valueOf fault (.done (.error fault))
  | find {path : Path} {next : Found → Plan α} (rest : Fails S valueOf fault (next (S.find path))) :
    Fails S valueOf fault (.find path next)
  | evaluate {site : Site} {fresh : Bool} {next : Value → Plan α} {a : Account Value}
    (known : valueOf site = some a) (rest : Fails S valueOf fault (next a.result)) :
    Fails S valueOf fault (.evaluate site fresh next)
  | call {name : String} {args : List Value} {next : Value → Plan α} {v : Value}
    (answers : S.call name args = .ok v) (rest : Fails S valueOf fault (next v)) :
    Fails S valueOf fault (.call name args next)
  | refused {name : String} {args : List Value} {next : Value → Plan α}
    (refuses : S.call name args = .error fault) : Fails S valueOf fault (.call name args next)

/-- What fails in a row fails at the first plan that does. -/
theorem Fails.bind {p : Plan α} {f : α → Plan β} (h : p.Fails S valueOf fault) :
    (p.bind f).Fails S valueOf fault := by
  induction h with
  | done => exact .done
  | find _ ih => exact .find ih
  | evaluate known _ ih => exact .evaluate known ih
  | call answers _ ih => exact .call answers ih
  | refused refuses => exact .refused refuses

/-- Plans in a row fail if the second does for what the first comes to. -/
theorem ComesTo.fails {p : Plan α} {f : α → Plan β} {a : α} (hp : p.ComesTo S valueOf a)
    (hf : (f a).Fails S valueOf fault) : (p.bind f).Fails S valueOf fault := by
  obtain ⟨b, hb, rfl⟩ := hp
  induction p generalizing b with
  | done result =>
    cases result with
    | ok a =>
      cases hb
      exact hf
    | error f => cases hb
  | find path next ih =>
    obtain ⟨c, hc, rfl⟩ := account_find.1 hb
    exact .find (ih _ c hc hf)
  | evaluate site fresh next ih =>
    obtain ⟨v, hv, c, hc, rfl⟩ := account_evaluate.1 hb
    exact .evaluate hv (ih _ c hc hf)
  | call name args next ih =>
    obtain ⟨v, hv, hc⟩ := account_call.1 hb
    exact .call hv (ih _ b hc hf)

/-- What fails comes to nothing. -/
theorem Fails.account {p : Plan α} (h : p.Fails S valueOf fault) : p.account S valueOf = none := by
  induction h with
  | done => rfl
  | find _ ih => rw [Plan.account, ih, Option.map_none]
  | evaluate known _ ih => rw [Plan.account, known, Option.bind_some, ih, Option.map_none]
  | call answers _ ih => simp only [Plan.account, answers, ih]
  | refused refuses => rw [Plan.account, refuses]

/-- A plan fails as well where the expressions that it may have evaluated have the same accounts. -/
theorem Fails.of_evaluates {P : Site → Prop}
    (hval : ∀ site v, P site → valueOf site = some v → valueOf' site = some v) {p : Plan α}
    (hp : p.Evaluates S P) (h : p.Fails S valueOf fault) : p.Fails S valueOf' fault := by
  induction h with
  | done => exact .done
  | find _ ih => exact .find (ih hp)
  | evaluate known _ ih => exact .evaluate (hval _ _ hp.1 known) (ih (hp.2 _))
  | call answers _ ih => exact .call answers (ih (hp _))
  | refused refuses => exact .refused refuses

end Plan

/-! ## Queries -/

namespace Query

variable {S : Setting} {fault : Fault}

/-- What a query comes to if every expression is evaluated anew wherever its value is needed. -/
def ComesTo (S : Setting) (q : Query α) (v : α) : Prop :=
  ∃ n, (Plan.answer q).ComesTo S (S.account n) v

/-- A query fails, but not in an expression that it needs. -/
def Fails (S : Setting) (fault : Fault) (q : Query α) : Prop :=
  ∃ n, (Plan.answer q).Fails S (S.account n) fault

theorem comesTo_done {a v : α} : (Query.done (.ok a)).ComesTo S v ↔ a = v := by
  simp only [ComesTo, Plan.answer, Plan.comesTo_done, exists_const]

theorem comesTo_bind {q : Query α} {f : α → Query β} {v : β} :
    (q.bind f).ComesTo S v ↔ ∃ a, q.ComesTo S a ∧ (f a).ComesTo S v := by
  simp only [ComesTo, Plan.answer_bind, Plan.comesTo_bind]
  constructor
  · rintro ⟨n, a, ha, hv⟩
    exact ⟨a, ⟨n, ha⟩, n, hv⟩
  · rintro ⟨a, ⟨n, ha⟩, m, hv⟩
    exact ⟨max n m, a, ha.mono fun _ _ => S.account_le (Nat.le_max_left n m),
      hv.mono fun _ _ => S.account_le (Nat.le_max_right n m)⟩

theorem ComesTo.unique {q : Query α} {v v' : α} (h : q.ComesTo S v) (h' : q.ComesTo S v') : v = v' := by
  obtain ⟨n, h⟩ := h
  obtain ⟨m, h'⟩ := h'
  exact (h.mono fun _ _ => S.account_le (Nat.le_max_left n m)).unique
    (h'.mono fun _ _ => S.account_le (Nat.le_max_right n m))

theorem ComesTo.fails {q : Query α} {f : α → Query β} {a : α} (h : q.ComesTo S a)
    (hf : (f a).Fails S fault) : (q.bind f).Fails S fault := by
  obtain ⟨n, h⟩ := h
  obtain ⟨m, hf⟩ := hf
  refine ⟨max n m, ?_⟩
  rw [Plan.answer_bind]
  have hle (site : Site) (v : Account Value) (_ : S.Locates site) :
      S.account m site = some v → S.account (max n m) site = some v :=
    S.account_le (Nat.le_max_right n m)
  exact (h.mono fun _ _ => S.account_le (Nat.le_max_left n m)).fails
    (hf.of_evaluates hle (Plan.evaluates_answer _))

theorem not_comesTo_error {v : α} : ¬ (Query.done (.error fault)).ComesTo S v := by
  rintro ⟨n, a, ha, -⟩
  cases ha

theorem fails_error : (Query.done (.error fault) : Query α).Fails S fault :=
  ⟨0, .done⟩

end Query

/-- What is asked for anew comes to the same without memory. -/
theorem Plan.account_resolve_eq {S : Setting} {valueOf : Site → Option (Account Value)}
    (fresh fresh' : Bool) (path : Path) :
    (resolve fresh path).account S valueOf = (resolve fresh' path).account S valueOf := by
  have hdescend (levels : Nat) (found : Found) : (descend fresh levels found).account S valueOf =
      (descend fresh' levels found).account S valueOf := by
    induction levels generalizing found with
    | zero => cases found <;> rfl
    | succ levels ih =>
      cases found with
      | mapping => exact account_mapping_congr fun slot _ => ih _
      | list => exact account_list_congr fun path _ => ih _
      | _ => rfl
  exact account_find_congr (hdescend _ _)

/-- What a reading of a path comes to. -/
def Setting.Reads (S : Setting) (path : Path) (v : Option Value) : Prop :=
  ∃ n, (Plan.resolve false path).ComesTo S (S.account n) v

namespace Query

variable {S : Setting} {fault : Fault} {path : Path} {fresh : Bool} {next : Option Value → Query α}

theorem comesTo_read_pure {v : Option Value} :
    (Query.read path fresh pure).ComesTo S v ↔ S.Reads path v := by
  refine exists_congr fun n => Plan.comesTo_bind.trans ?_
  simp only [Plan.ComesTo, Plan.account_resolve_eq fresh false path]
  exact ⟨fun ⟨u, hu, hv⟩ => Plan.comesTo_done.1 hv ▸ hu, fun h => ⟨v, h, Plan.comesTo_done.2 rfl⟩⟩

theorem comesTo_read {w : α} : (Query.read path fresh next).ComesTo S w ↔
    ∃ v, S.Reads path v ∧ (next v).ComesTo S w := by
  have h : Query.read path fresh next = (Query.read path fresh pure).bind next := rfl
  simp only [h, comesTo_bind, comesTo_read_pure]

theorem fails_read {v : Option Value} (h : S.Reads path v) (hf : (next v).Fails S fault) :
    (Query.read path fresh next).Fails S fault :=
  (comesTo_read_pure.2 h).fails hf

end Query

/-! ## Runs -/

namespace Request

variable {request : Request σ} {f : String → List Value → Except String Value} {S : Setting}
  {traced : Prop} {left n : Nat} {stack stack' : Stack} {w w' : World σ} {fault : Fault}

/-- What fails without memory fails so in a run, unless evaluations nest too deep. -/
theorem follow_fails (hS : S.Coherent) (hp : request.options.Pure f) {evaluate : Evaluator σ}
    (hev : request.Accounts f S traced left evaluate) {p : Plan α} (hpe : p.Evaluates S S.Locates)
    (hfails : p.Fails S (S.account n) fault) (hw : request.setting f w = S)
    (hf : w.cache.Faithful S traced) (hc : S.Clear n stack) {r : Except Fault α}
    (h : (request.follow evaluate p).Runs stack w r stack' w') :
    r = .error fault ∨ IsTooDeep r ∧ left < n := by
  induction hfails generalizing stack w with
  | done =>
    obtain ⟨rfl, -, -⟩ := Task.runs_pure_iff.1 h
    exact .inl rfl
  | @find path next _ ih =>
    have h := runs_follow_find h
    have hfound : request.foundAt w path = S.find path := by
      rw [← hw]
      rfl
    rw [hfound] at h
    exact ih hpe hw hf (hc.of_paths (Stack.grown_record stack _).map_path) h
  | @evaluate site fresh next a known _ ih =>
    rcases runs_follow_evaluate h with ⟨fault', rfl, hsite⟩ | ⟨value, s, v, hsite, h⟩
    · have hacc := hev site fresh stack w _ _ _ hw hpe.1 hf hsite
      rcases hacc.deep n a known hc with ⟨v, hv⟩ | ⟨⟨limit, path, he⟩, hlt⟩
      · cases hv
      · cases he
        exact .inr ⟨⟨limit, path, rfl⟩, hlt⟩
    · have hacc := hev site fresh stack w _ s v hw hpe.1 hf hsite
      obtain ⟨m, b, reads, hb, rfl, hg, -⟩ := hacc.ok value rfl
      obtain rfl := S.account_unique known hb
      have hv : request.setting f v = S := by
        rw [← hw, setting, setting, hacc.document, hacc.context]
      exact ih (hpe.2 _) hv (hf.grows hS hacc.grows) (hc.of_paths hg.map_path) h
  | @call name args next v answers _ ih =>
    have hout : request.outcome f name args = S.call name args := by
      rw [← hw]
      rfl
    rcases runs_follow_call h with ⟨fault', rfl, hcall⟩ | ⟨value, s, u, hcall, h⟩
    · obtain ⟨hr, -, -⟩ := runs_call hp hcall
      cases hr.trans (hout.trans answers)
    · obtain ⟨hr, rfl, host, rfl⟩ := runs_call hp hcall
      obtain rfl := Except.ok.inj (hr.trans (hout.trans answers))
      exact ih (hpe _) (w := { w with host := host }) hw hf hc h
  | @refused name args next refuses =>
    have hout : request.outcome f name args = S.call name args := by
      rw [← hw]
      rfl
    rcases runs_follow_call h with ⟨fault', rfl, hcall⟩ | ⟨value, s, u, hcall, h⟩
    · obtain ⟨hr, -, -⟩ := runs_call hp hcall
      exact .inl (congrArg Except.error (Except.error.inj (hr.trans (hout.trans refuses))))
    · obtain ⟨hr, -, -⟩ := runs_call hp hcall
      cases hr.trans (hout.trans refuses)

/-- An expression whose template fails comes to nothing. -/
theorem account_of_fails {site : Site} (h : (Plan.render site).Fails S (S.account n) fault) (m : Nat) :
    S.account m site = none := by
  have hle (site : Site) (v : Account Value) (_ : S.Locates site) :
      S.account n site = some v → S.account (max n m) site = some v :=
    S.account_le (Nat.le_max_left n m)
  have hnone := (h.of_evaluates hle (Plan.evaluates_render site)).account
  have hlast : S.account (max n m + 1) site = none := by rw [Setting.account, hnone, Option.map_none]
  cases hm : S.account m site with
  | none => rfl
  | some a =>
    rw [S.account_le (Nat.le_succ_of_le (Nat.le_max_right n m)) hm] at hlast
    cases hlast

/-- An expression whose template fails fails with the error of the template. -/
theorem evaluate_fails (hS : S.Coherent) (hp : request.options.Pure f) {site : Site}
    (hs : S.Locates site) (hfails : (Plan.render site).Fails S (S.account n) fault)
    (hw : request.setting f w = S) (hf : w.cache.Faithful S traced) {fresh : Bool}
    {r : Except Fault Value} (h : (request.evaluate left site fresh).Runs [] w r stack' w') :
    r = .error ⟨fault.error, true⟩ ∨ IsTooDeep r ∧ left < n + 1 := by
  cases runs_evaluate hp.onError h with
  | kept known =>
    obtain ⟨m, a, ha, -⟩ := hf.sound _ _ known site hs rfl
    rw [account_of_fails hfails] at ha
    cases ha
  | cycle _ waiting => cases waiting
  | tooDeep _ _ spent =>
    subst spent
    exact .inr ⟨⟨_, _, rfl⟩, Nat.succ_pos n⟩
  | @computed _ _ left' remaining r _ _ run =>
    subst remaining
    obtain ⟨s, v, hrun, -, -⟩ := runs_compute run
    have hempty : S.Clear n [] := fun _ h => absurd h List.not_mem_nil
    have hclear := hempty.enter hS hs (Nat.le_refl n) (account_of_fails hfails n)
    rcases follow_fails hS hp (evaluate_accounted hS hp left') (Plan.evaluates_render site) hfails
      (w := { w with cache := w.cache.begin }) hw ⟨hf.timely.begin, hf.sound⟩ hclear hrun with
      rfl | ⟨⟨limit, path, rfl⟩, hlt⟩
    · exact .inl rfl
    · exact .inr ⟨⟨limit, path, rfl⟩, Nat.succ_lt_succ hlt⟩

end Request

/-! ## Reads -/

namespace Tree

variable {t t' : Tree σ} {f : String → List Value → Except String Value} {base : Path} {text : String}
  {asked : ReadOptions} {site : Site} {e : Expr} {r : ReadResult}

/-- A read with nothing to fall back to comes straight to an expression that is one span. -/
structure Asks (t : Tree σ) (base : Path) (text : String) (asked : ReadOptions) (site : Site)
    (e : Expr) : Prop where
  bare : asked.fallback = none
  names : ∃ path, base.resolve text = .ok path ∧
    locate t.document path (t.context.merge asked.own) = .expression site
  whole : site.rest = []
  template : Template.parse site.text = .ok [.span e]

/-- A failure because evaluations nest too deep, where fewer may nest than there are expressions. -/
def Overdeep (t : Tree σ) (r : ReadResult) : Prop :=
  r.IsTooDeep ∧ t.options.maxDepth < (expressionPaths t.document).length

theorem Asks.render (h : t.Asks base text asked site e) :
    Plan.render site = Plan.answer (Query.ofExpr ⟨site.owner, site.context⟩ e) := by
  rw [Plan.render, h.template]
  dsimp only
  rw [Query.ofTemplate]

/-- A read of an expression shows what the expression comes to. -/
theorem Asks.shows (h : t.Asks base text asked site e) (hp : t.options.Pure f) (hi : t.inflight = [])
    (hf : t.world.cache.Faithful (t.setting f asked.own) True) {v : Value}
    (hv : (Query.ofExpr ⟨site.owner, site.context⟩ e).ComesTo (t.setting f asked.own) v)
    (hg : t.Gives base text asked r t') : r = .ok (some v) ∨ t.Overdeep r := by
  have hS := t.setting_findsIn f asked.own
  obtain ⟨path, hbase, hl⟩ := h.names
  obtain ⟨n, a, ha, rfl⟩ := hv
  rw [← h.render] at ha
  have hsite := hS.account_surveyed (hS.locates_iff.2 ⟨path, hl⟩) (Setting.account_succ.2 ⟨a, ha, rfl⟩)
  have hfind : (t.setting f asked.own).find path = .expression site := by
    rw [hS, hl]
    rfl
  have hread : (Plan.resolve asked.fresh path).ComesTo (t.setting f asked.own)
      ((t.setting f asked.own).account (expressionPaths t.document).length) (some a.result) := by
    refine Plan.comesTo_find.2 ?_
    rw [hfind]
    refine Plan.comesTo_evaluate.2 ⟨_, hsite, Plan.comesTo_done.2 ?_⟩
    rw [h.whole]
    rfl
  obtain ⟨b, hb, hresult⟩ := hread
  have hb : account? (t.setting f asked.own) (expressionPaths t.document).length base text asked =
      some b := by
    simpa only [account?, hbase] using hb
  have hanswer := hg.answered hp hi hf
  rcases hanswer.deep _ _ hb with ⟨u, rfl⟩ | hdeep
  · obtain ⟨m, c, hc, rfl, -⟩ := hanswer.ok u rfl
    rw [account?_unique hc hb, h.bare, Option.or_none, hresult]
    exact .inl rfl
  · exact .inr hdeep

/-- A read that comes straight to an expression ends as the evaluation of the expression does. -/
theorem Asks.evaluated (h : t.Asks base text asked site e) (hi : t.inflight = [])
    (hg : t.Gives base text asked r t') : ∃ q s v,
      ((t.request asked).evaluate t.options.maxDepth site asked.fresh).Runs [] t.world q s v ∧
        r = (q.map some).mapError Fault.error := by
  obtain ⟨path, hbase, hl⟩ := h.names
  rcases hg.cases hi with ⟨e, he, -⟩ | ⟨path', hpath, hread, -⟩
  · rw [hbase] at he
    cases he
  · obtain rfl := Except.ok.inj (hbase.symm.trans hpath)
    obtain ⟨result, stack, hrun, rfl⟩ := Request.ends_read hread
    have hrun := Request.runs_follow_find hrun
    have hfound : (t.request asked).foundAt t.world path = .expression site := congrArg Found.ofLocated hl
    have hplan : Plan.descend asked.fresh (Found.expression site).levels (.expression site) =
        .evaluate site asked.fresh fun v => return v.descend? site.rest := rfl
    rw [hfound, hplan] at hrun
    rcases Request.runs_follow_evaluate hrun with ⟨fault, rfl, hq⟩ | ⟨value, s, v, hq, hrun⟩
    · exact ⟨_, _, _, hq, rfl⟩
    · obtain ⟨rfl, -, -⟩ := Task.runs_pure_iff.1 hrun
      refine ⟨_, _, _, hq, ?_⟩
      rw [h.whole]
      show Except.ok ((some value).or asked.fallback) = Except.ok (some value)
      rw [Option.some_or]

/-- A read of an expression fails with the error that the expression fails with. -/
theorem Asks.fails (h : t.Asks base text asked site e) (hp : t.options.Pure f) (hi : t.inflight = [])
    (hf : t.world.cache.Faithful (t.setting f asked.own) True) {error : EvalError}
    (hfails : (Query.ofExpr ⟨site.owner, site.context⟩ e).Fails (t.setting f asked.own) (.new error))
    (hg : t.Gives base text asked r t') : r = .error error ∨ t.Overdeep r := by
  have hS := t.setting_findsIn f asked.own
  obtain ⟨path, -, hl⟩ := h.names
  have hsite := hS.locates_iff.2 ⟨path, hl⟩
  obtain ⟨n, hfails⟩ := hfails
  rw [← h.render] at hfails
  have hspared (site' : Site) (v : Account Value) (hs : (t.setting f asked.own).Locates site')
      (hv : (t.setting f asked.own).account n site' = some v) :
      (t.setting f asked.own).account ((expressionPaths t.document).length - 1) site' = some v :=
    hS.account_spared hs hv hsite (Request.account_of_fails hfails)
  have hfails := hfails.of_evaluates hspared (Plan.evaluates_render site)
  obtain ⟨c, hc, -⟩ := surveyed_of_locate hl
  have hlevels : (expressionPaths t.document).length - 1 + 1 = (expressionPaths t.document).length :=
    Nat.sub_add_cancel (List.length_pos_of_mem hc)
  obtain ⟨q, s, v, hq, rfl⟩ := h.evaluated hi hg
  have hw : (t.request asked).setting f t.world = t.setting f asked.own := rfl
  rcases Request.evaluate_fails (t.setting_coherent f asked.own) hp hsite hfails hw hf hq with
    rfl | ⟨⟨limit, place, rfl⟩, hlt⟩
  · exact .inl rfl
  · exact .inr ⟨⟨limit, place, rfl⟩, hlevels ▸ hlt⟩

end Tree

end LiveDoc

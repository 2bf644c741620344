import LiveDoc.Proofs.Coalescing
import LiveDoc.Proofs.Hooks
import LiveDoc.Proofs.Places
import LiveDoc.Proofs.Questions
import LiveDoc.Proofs.TrafficLog
import LiveDoc.Workbench
import Mathlib

/-! # Remembered results

Where no expression asks for anything anew, a read that does not either leaves every known result as
it is: it evaluates only what is not known yet. So what an expression has once come to is found by
all later reads, whatever the resolvers would answer by then.
-/

namespace LiveDoc

variable {σ α β : Type}

/-! ## Documents that ask for nothing anew -/

/-- Whether the template that a text writes asks for nothing anew. -/
def Template.reusing (text : String) : Bool :=
  match Template.parse text with
  | .ok t => !Part.asksAnewIn t
  | .error _ => true

namespace Value

mutual

/-- Whether no expression in a value asks for anything anew. -/
def reusing : Value → Bool
  | .obj members => reusingMembers members
  | .arr items => reusingItems items
  | _ => true

def reusingMembers : List (String × Value) → Bool
  | [] => true
  | (key, value) :: rest =>
    (if isExpression key value then Template.reusing (value.string?.getD "") else value.reusing) &&
      reusingMembers rest

def reusingItems : List Value → Bool
  | [] => true
  | value :: rest => value.reusing && reusingItems rest

end

variable {members : Members} {items : List Value} {key : String} {value current : Value}

theorem reusing_of_mem_members (h : reusingMembers members = true) (hm : (key, value) ∈ members) :
    (if isExpression key value then Template.reusing (value.string?.getD "") else value.reusing) =
      true := by
  induction members with
  | nil => cases hm
  | cons member rest ih =>
    obtain ⟨hfirst, hrest⟩ := Bool.and_eq_true_iff.1 h
    rcases List.mem_cons.1 hm with rfl | hm
    · exact hfirst
    · exact ih hrest hm

theorem reusing_of_mem_items (h : reusingItems items = true) (hm : value ∈ items) :
    value.reusing = true := by
  induction items with
  | nil => cases hm
  | cons item rest ih =>
    obtain ⟨hfirst, hrest⟩ := Bool.and_eq_true_iff.1 h
    rcases List.mem_cons.1 hm with rfl | hm
    · exact hfirst
    · exact ih hrest hm

theorem reusing_child (h : current.reusing = true) (hc : current.child? key = some value)
    (hx : isExpression key value = false) : value.reusing = true := by
  cases current with
  | obj members =>
    have hm := reusing_of_mem_members h (Assoc.mem_of_lookup hc)
    rwa [hx] at hm
  | arr items =>
    obtain ⟨i, -, hi⟩ := Option.bind_eq_some_iff.1 hc
    exact reusing_of_mem_items h (List.mem_of_getElem? hi)
  | _ => cases hc

theorem reusing_text {text : String} (h : current.reusing = true)
    (hc : current.child? key = some (.str text)) (hk : isMarked key = true) :
    Template.reusing text = true := by
  cases current with
  | obj members =>
    have hm := reusing_of_mem_members h (Assoc.mem_of_lookup hc)
    have hx : isExpression key (.str text) = true := by simp [isExpression, hk, Value.string?]
    rwa [hx] at hm
  | arr items =>
    obtain ⟨i, hi, -⟩ := Option.bind_eq_some_iff.1 hc
    rw [(isExact_eq_false (isExact_of_index? hi)).2] at hk
    cases hk
  | _ => cases hc

theorem reusing_of_walk {path : Path} {context : Context} {segments : List String} {site : Site}
    (h : current.reusing = true) (hl : walk current path context segments = .expression site) :
    Template.reusing site.text = true := by
  induction segments generalizing current path context with
  | nil => cases hl
  | cons segment rest ih =>
    rcases walk_cons_cases current context segment with he | ⟨key, text, he, hk⟩ |
      ⟨key, value, he, hx⟩
    · rw [walk_cons_none he] at hl
      cases hl
    · rw [walk_cons_expression he hk] at hl
      cases hl
      exact reusing_text h (enter?_child he).1 hk
    · rw [walk_cons_static he hx] at hl
      exact ih (reusing_child h (enter?_child he).1 hx) hl

end Value

namespace Plan

theorem reuses_measure (path : Path) : (measure path).Reuses := by
  intro found
  cases found with
  | expression site =>
    refine ⟨rfl, fun v => ?_⟩
    dsimp only
    split <;> trivial
  | _ => trivial

theorem reuses_answer {q : Query α} {n : Nat} (h : q.Within false n) : (answer q).Reuses := by
  induction q generalizing n with
  | done result => trivial
  | read path fresh next ih =>
    obtain ⟨hf, -, hnext⟩ := h
    obtain rfl : fresh = false := Bool.eq_false_of_le_false hf
    exact (reuses_resolve path).bind fun v => ih v (hnext v)
  | measure path next ih => exact (reuses_measure path).bind fun size => ih size (h.2 size)
  | call name args next ih => exact fun v => ih v (h.2 v)

theorem reuses_render {site : Site} (h : Template.reusing site.text = true) :
    (render site).Reuses := by
  unfold Template.reusing at h
  unfold render
  cases ht : Template.parse site.text with
  | error cause => trivial
  | ok t =>
    rw [ht] at h
    have hanew : Part.asksAnewIn t ≤ false := by
      rw [Bool.not_eq_true'] at h
      rw [h]
    exact reuses_answer (Query.within_ofTemplate t hanew)

end Plan

/-! ## Runs that ask for nothing anew -/

/-- Every known result is still known. -/
def Cache.Retains (c c' : Cache) : Prop :=
  ∀ key entry, c.lookup key = some entry → c'.lookup key = some entry

theorem Cache.Retains.trans {c c' c'' : Cache} (h : c.Retains c') (h' : c'.Retains c'') :
    c.Retains c'' :=
  fun key entry hl => h' key entry (h key entry hl)

namespace Request

variable {request : Request σ} {S : Setting} {stack stack' : Stack} {w w' : World σ}

/-- Evaluations of located expressions that need not be done anew leave alone what is known. -/
def Retaining (request : Request σ) (S : Setting) (evaluate : Evaluator σ) : Prop :=
  ∀ site stack w r stack' w', S.FindsIn w.document (w.context.merge request.context) →
    S.Locates site → w.cache.Timely → (evaluate site false).Runs stack w r stack' w' →
    w.cache.Retains w'.cache

theorem follow_retains {evaluate : Evaluator σ} (hst : request.Steadily evaluate)
    (hev : request.Retaining S evaluate) {p : Plan α} (hr : p.Reuses)
    (hpe : p.Evaluates S S.Locates) {r : Except Fault α}
    (hS : S.FindsIn w.document (w.context.merge request.context)) (ht : w.cache.Timely)
    (h : (request.follow evaluate p).Runs stack w r stack' w') : w.cache.Retains w'.cache := by
  induction p generalizing stack w with
  | done result =>
    obtain ⟨rfl, rfl, rfl⟩ := Task.runs_pure_iff.1 h
    exact fun _ _ => id
  | find path next ih =>
    have h := runs_follow_find h
    rw [foundAt, ← hS path] at h
    exact ih _ (hr _) hpe hS ht h
  | evaluate site fresh next ih =>
    obtain ⟨rfl, hr⟩ := hr
    rcases runs_follow_evaluate h with ⟨fault, -, hsite⟩ | ⟨value, s, v, hsite, h⟩
    · exact hev site _ _ _ _ _ hS hpe.1 ht hsite
    · have hv := hst site false _ _ _ _ _ hsite
      have hS' : S.FindsIn v.document (v.context.merge request.context) := by
        rwa [hv.document, hv.context]
      exact (hev site _ _ _ _ _ hS hpe.1 ht hsite).trans
        (ih value (hr value) (hpe.2 value) hS' (hv.timely ht) h)
  | call name args next ih =>
    rcases runs_follow_call h with ⟨fault, -, hcall⟩ | ⟨value, s, v, hcall, h⟩
    · obtain ⟨-, host, rfl⟩ := runs_call_frame hcall
      exact fun _ _ => id
    · obtain ⟨-, host, rfl⟩ := runs_call_frame hcall
      exact ih value (hr value) (hpe value) (w := { w with host := host }) hS ht h

/-- A result is stored only under the key of an expression that was not known. -/
theorem compute_retains {evaluate : Evaluator σ} (hst : request.Steadily evaluate)
    (hev : request.Retaining S evaluate) {site : Site} (hr : (Plan.render site).Reuses)
    {r : Except Fault Value} (hS : S.FindsIn w.document (w.context.merge request.context))
    (ht : w.cache.Timely) (hu : w.cache.lookup (keyOf site) = none)
    (h : (request.compute evaluate site).Runs stack w r stack' w') :
    w.cache.Retains w'.cache := by
  obtain ⟨s, v, hrun, rfl, rfl⟩ := runs_compute h
  have hv := follow_steady hst hrun
  have hkept : w.cache.Retains v.cache :=
    follow_retains hst hev hr (Plan.evaluates_render site)
      (w := { w with cache := w.cache.begin }) hS ht.begin hrun
  have htimely : (v.cache.finish w.cache.epoch).Timely := (hv.timely ht.begin).finish _
  have hepoch : (v.cache.finish w.cache.epoch).epoch = w.cache.epoch := hv.epoch
  intro key entry hl
  have hl' : (v.cache.finish w.cache.epoch).lookup key = some entry := hkept key entry hl
  rcases store_cases site w.cache.epoch r s (v.cache.finish w.cache.epoch) with
    hs | ⟨value, reads, -, hs⟩
  · rw [hs]
    exact hl'
  · have hne : key ≠ keyOf site := by
      rintro rfl
      rw [hu] at hl
      cases hl
    rw [hs, htimely.lookup_insert _ (Nat.le_of_eq hepoch), if_neg hne]
    exact hl'

theorem evaluated_retains {left : Nat} (hS : ∀ site, S.Locates site → (Plan.render site).Reuses)
    (hev : ∀ left', left = left' + 1 → request.Retaining S (request.evaluate left')) :
    request.Retaining S (request.evaluate left) := by
  intro site stack w r stack' w' hfind hs ht h
  have hcompute {left' : Nat} (hleft : left = left' + 1)
      (hu : false = true ∨ w.cache.lookup (keyOf site) = none) {r : Except Fault Value}
      {s : Stack} {v : World σ}
      (run : (request.compute (request.evaluate left') site).Runs stack w r s v) :
      w.cache.Retains v.cache :=
    compute_retains (request.evaluate_steady left') (hev left' hleft) (hS site hs) hfind ht
      (hu.resolve_left Bool.false_ne_true) run
  cases runs_evaluate_cases h with
  | kept => exact fun _ _ => id
  | cycle _ _ recovered | tooDeep _ _ _ recovered =>
    rw [recovered.cache_eq]
    exact fun _ _ => id
  | computed unknown _ remaining run => exact hcompute remaining unknown run
  | failed unknown _ remaining run recovered =>
    rw [recovered.cache_eq]
    exact hcompute remaining unknown run

theorem evaluate_retains (hS : ∀ site, S.Locates site → (Plan.render site).Reuses) (left : Nat) :
    request.Retaining S (request.evaluate left) := by
  induction left using of_remaining with
  | step left ih => exact evaluated_retains hS ih

/-- Where no expression asks for anything anew, a read that does not either retains what is
known. -/
theorem read_retains {path : Path} {r : ReadResult} (hd : w.document.reusing = true)
    (ht : w.cache.Timely) (h : (request.read path false w).Ends r w') :
    w.cache.Retains w'.cache := by
  obtain ⟨result, stack, hrun, -⟩ := ends_read h
  let S := request.setting (fun _ _ => .ok .null) w
  have hrender (site : Site) (hs : S.Locates site) : (Plan.render site).Reuses := by
    obtain ⟨path, hl⟩ := setting_locates.1 hs
    exact Plan.reuses_render (Value.reusing_of_walk hd hl)
  exact follow_retains (request.evaluate_steady _) (evaluate_retains hrender _)
    (Plan.reuses_resolve path) (Plan.evaluates_resolve false path) setting_findsIn ht hrun

theorem read_steady {path : Path} {fresh : Bool} {r : ReadResult}
    (h : (request.read path fresh w).Ends r w') :
    w'.document = w.document ∧ w'.context = w.context ∧ (w.cache.Timely → w'.cache.Timely) := by
  obtain ⟨result, stack, hrun, -⟩ := ends_read h
  have hst := follow_steady (request.evaluate_steady _) hrun
  exact ⟨hst.document, hst.context, hst.timely⟩

/-! ## What is known of an expression -/

/-- The result of an evaluation that goes well without a hook is known when it ends. -/
theorem known_of_evaluate (hn : request.options.onError = none) (ht : w.cache.Timely) {left : Nat}
    {site : Site} {fresh : Bool} {value : Value}
    (h : (request.evaluate left site fresh).Runs stack w (.ok value) stack' w') :
    ∃ entry, w'.cache.lookup (keyOf site) = some entry ∧ entry.value = value := by
  generalize hr : (.ok value : Except Fault Value) = r at h
  cases runs_evaluate hn h with
  | @kept entry known =>
    cases hr
    exact ⟨entry, known, rfl⟩
  | cycle | tooDeep => cases hr
  | @computed _ _ left' _ r _ _ run =>
    cases r with
    | error fault => cases hr
    | ok v =>
      cases hr
      obtain ⟨s, v, hrun, -, rfl⟩ := runs_compute run
      have hst := follow_steady (request.evaluate_steady left') hrun
      obtain ⟨frame, rest, rfl, -⟩ := hst.top
      have hkeep : frame.keepable = true :=
        (List.cons_eq_cons.1 (hst.silent (hst.unheard hn))).1
      have htimely : (v.cache.finish w.cache.epoch).Timely := (hst.timely ht.begin).finish _
      have hepoch : (v.cache.finish w.cache.epoch).epoch = w.cache.epoch := hst.epoch
      have hstore : store site w.cache.epoch (.ok value) (frame :: rest)
          (v.cache.finish w.cache.epoch) = (v.cache.finish w.cache.epoch).insert (keyOf site)
            ⟨value, w.cache.epoch, frame.reads⟩ := if_pos hkeep
      refine ⟨⟨value, w.cache.epoch, frame.reads⟩, ?_, rfl⟩
      rw [hstore, htimely.lookup_insert _ (Nat.le_of_eq hepoch), if_pos rfl]

/-- The result of an expression is known after a read that runs into it and goes well. -/
theorem known_of_read (hn : request.options.onError = none) (ht : w.cache.Timely) {path : Path}
    {site : Site} (hl : locate w.document path (w.context.merge request.context) = .expression site)
    {fresh : Bool} {v : Option Value} (h : (request.read path fresh w).Ends (.ok v) w') :
    ∃ entry, w'.cache.lookup (keyOf site) = some entry ∧
      (entry.value.descend? site.rest).or request.fallback = v := by
  obtain ⟨result, stack, hrun, hv⟩ := ends_read h
  have hrun := runs_follow_find hrun
  have hplan : Plan.descend fresh (Found.ofLocated (.expression site)).levels
      (.ofLocated (.expression site)) = .evaluate site fresh fun v => return v.descend? site.rest := rfl
  rw [foundAt, hl, hplan] at hrun
  rcases runs_follow_evaluate hrun with ⟨fault, rfl, -⟩ | ⟨value, s, u, hsite, hdone⟩
  · cases hv
  · obtain ⟨rfl, -, rfl⟩ := Task.runs_pure_iff.1 hdone
    obtain ⟨entry, hentry, rfl⟩ := known_of_evaluate hn ht hsite
    exact ⟨entry, hentry, (Except.ok.inj hv).symm⟩

theorem evaluate_of_known {left : Nat} {site : Site} {entry : CacheEntry}
    (hk : w.cache.lookup (keyOf site) = some entry) : request.evaluate left site false stack w =
      .done (.ok entry.value, stack.record entry.reads) w := by
  have hremembered : (remembered site false : Task σ (Option Value)) stack w =
      .done (some entry.value, stack.record entry.reads) w := by
    rw [remembered, if_neg Bool.false_ne_true, keptResult]
    show Step.bind (.done (w, stack) w) _ = _
    simp only [Step.bind, hk]
    rfl
  unfold evaluate
  show Step.bind _ _ = _
  rw [hremembered]
  rfl

/-- A read that runs into a known expression ends at once and leaves the world as it is. -/
theorem read_of_known {path : Path} {site : Site} {entry : CacheEntry}
    (hl : locate w.document path (w.context.merge request.context) = .expression site)
    (hk : w.cache.lookup (keyOf site) = some entry) : request.read path false w =
      .done (.ok ((entry.value.descend? site.rest).or request.fallback)) w := by
  let evaluate := request.evaluate request.options.maxDepth
  let next (v : Value) : Plan (Option Value) := .done (.ok (v.descend? site.rest))
  have hfind : request.follow evaluate (Plan.resolve false path) [] w =
      request.follow evaluate (.evaluate site false next) [] w := by
    have hplan : Plan.descend false (Found.ofLocated (.expression site)).levels
        (.ofLocated (.expression site)) = .evaluate site false next := rfl
    rw [← hplan, ← hl]
    rfl
  have hsite : request.follow evaluate (.evaluate site false next) [] w =
      .done (.ok (entry.value.descend? site.rest), []) w := by
    unfold follow
    show Step.bind (request.evaluate request.options.maxDepth site false [] w) _ = _
    rw [evaluate_of_known hk]
    rfl
  rw [read, hfind, hsite]
  rfl

end Request

namespace Tree

variable {t t' t₁ t₂ : Tree σ}

/-- A read that asks for nothing anew. -/
inductive Rereads : Tree σ → Tree σ → Prop where
  | read {t t' : Tree σ} {base : Path} {text : String} {asked : ReadOptions} {r : ReadResult}
    (reuses : asked.fresh = false) (gives : t.Gives base text asked r t') : Rereads t t'

/-- The tree with other resolvers in the place of its own. -/
def withRegistry (t : Tree σ) (registry : Registry σ) : Tree σ :=
  { t with options := { t.options with registry := registry } }

/-- What reads that ask for nothing anew leave as it is. -/
structure Lasts (t t' : Tree σ) : Prop where
  idle : t'.inflight = []
  document : t'.document = t.document
  context : t'.context = t.context
  timely : t'.world.cache.Timely
  retains : t.world.cache.Retains t'.world.cache

theorem Lasts.rereads (h : t.Lasts t₁) (hd : t.document.reusing = true) (hr : t₁.Rereads t₂) :
    t.Lasts t₂ := by
  cases hr with
  | @read base text asked r reuses gives =>
    rcases gives.cases h.idle with ⟨e, -, -, rfl⟩ | ⟨path, -, hrun, hidle, -⟩
    · exact h
    · obtain ⟨hdoc, hctx, ht⟩ := Request.read_steady hrun
      rw [reuses] at hrun
      have hd : t₁.world.document.reusing = true := (congrArg Value.reusing h.document).trans hd
      exact ⟨hidle, hdoc.trans h.document, hctx.trans h.context, ht h.timely,
        h.retains.trans (Request.read_retains hd h.timely hrun)⟩

theorem lasts_of_rereads (hi : t.inflight = []) (ht : t.world.cache.Timely)
    (hd : t.document.reusing = true) (h : Relation.ReflTransGen Rereads t t') : t.Lasts t' := by
  induction h with
  | refl => exact ⟨hi, rfl, rfl, ht, fun _ _ => id⟩
  | tail _ hr ih => exact ih.rereads hd hr

/-- A read that runs into a known expression calls no resolver: it comes to the same whatever
resolvers there are. -/
theorem get_of_known {base path : Path} {text : String} {asked : ReadOptions} {site : Site}
    {entry : CacheEntry} (hi : t.inflight = []) (hf : asked.fresh = false)
    (hp : base.resolve text = .ok path)
    (hl : locate t.document path (t.context.merge asked.own) = .expression site)
    (hk : t.world.cache.lookup (Request.keyOf site) = some entry) (registry : Registry σ) :
    ∃ t', (t.withRegistry registry).get base text asked =
        (t', some (.ok ((entry.value.descend? site.rest).or asked.fallback))) ∧
      t'.world = t.world :=
  get_of_done (t := t.withRegistry registry) hi hf hp (Request.read_of_known hl hk)

/-- On a tree without a hook whose document asks for nothing anew, and with no read under way that
may be shared: what a read that runs into an expression has come to is given again, after any reads
that ask for nothing anew, and no resolver is called for it. -/
theorem get_remembered (document : Value) (options : Options σ) (host : σ)
    (before : List (Act σ)) {s : Traffic σ}
    (hs : (Traffic.idle (ofDocument document options host)).run before = s) (hquiet : ¬ s.Pending)
    (hn : s.tree.options.onError = none) (hd : s.tree.document.reusing = true) {base path : Path}
    {text : String} {asked : ReadOptions} {site : Site} (hp : base.resolve text = .ok path)
    (hl : locate s.tree.document path (s.tree.context.merge asked.own) = .expression site)
    {v : Option Value} (hg : s.tree.Gives base text asked (.ok v) t₁)
    (hr : Relation.ReflTransGen Rereads t₁ t₂) :
    (∃ t₃, t₂.get base text { asked with fresh := false } = (t₃, some (.ok v)) ∧
      t₃.world = t₂.world) ∧
    ∀ registry, ∃ t₃, (t₂.withRegistry registry).get base text { asked with fresh := false } =
      (t₃, some (.ok v)) ∧ t₃.world = t₂.world := by
  have horderly : s.Orderly := hs ▸ (Traffic.Orderly.idle (.ofDocument ..) rfl).run before
  have hidle : s.tree.inflight = [] := (Traffic.inflight_eq_nil_iff horderly).2 hquiet
  have htimely : s.tree.world.cache.Timely := by
    obtain ⟨ops, hrec, -⟩ :=
      Traffic.recorded_run (Traffic.recorded_idle document options host) before
    rw [hs] at hrec
    obtain ⟨_, _, hrec⟩ := hrec
    rw [hrec.world.cache_eq]
    exact hrec.world.legal.logs.timely
  rcases hg.cases hidle with ⟨e, he, -⟩ | ⟨path', hp', hrun, hidle', -⟩
  · rw [hp] at he
    cases he
  · obtain rfl := Except.ok.inj (hp.symm.trans hp')
    obtain ⟨hdoc, hctx, ht⟩ := Request.read_steady hrun
    -- the first read makes the result known, the others retain it
    have hl₁ : locate s.tree.world.document path
        (s.tree.world.context.merge (s.tree.request asked).context) = .expression site := hl
    obtain ⟨entry, hentry, hvalue⟩ := Request.known_of_read hn htimely hl₁ hrun
    have hd₁ : t₁.document.reusing = true := (congrArg Value.reusing hdoc).trans hd
    have hlast := lasts_of_rereads hidle' (ht htimely) hd₁ hr
    have hdoc₂ : t₂.document = s.tree.document := hlast.document.trans hdoc
    have hctx₂ : t₂.context = s.tree.context := hlast.context.trans hctx
    have hl₂ : locate t₂.document path (t₂.context.merge asked.own) = .expression site := by
      rw [hdoc₂, hctx₂, hl]
    have hvalue : (entry.value.descend? site.rest).or asked.fallback = v := hvalue
    have hkept : t₂.world.cache.lookup (Request.keyOf site) = some entry :=
      hlast.retains _ _ hentry
    have hfresh : ({ asked with fresh := false } : ReadOptions).fresh = false := rfl
    have hagain (registry : Registry σ) : ∃ t₃, (t₂.withRegistry registry).get base text
        { asked with fresh := false } = (t₃, some (.ok v)) ∧ t₃.world = t₂.world := by
      rw [← hvalue]
      exact get_of_known hlast.idle hfresh hp hl₂ hkept registry
    exact ⟨hagain t₂.options.registry, hagain⟩

/-- An expression that counts its evaluations and quotes another one that does. -/
def countedTwice : Value :=
  .obj [(".a", .str "${[count(), b]}"), (".b", .str "${count()}")]

def countingCalls : Options Workbench :=
  { (Options.default : Options Workbench) with registry := .ofList [("count", Workbench.count)] }

def counted : Tree Workbench :=
  ofDocument countedTwice countingCalls .empty

def anew : ReadOptions :=
  ⟨true, none, none⟩

/-- The tree after the expression was evaluated anew. -/
def countedOnce : Tree Workbench :=
  (counted.get .root "a" anew).1

theorem counted_gives : (counted.get .root "a" anew).2 =
    some (.ok (some (.arr [.num (.int 1), .num (.int 2)]))) := by
  cbv

theorem countedOnce_gives : (countedOnce.get .root "b" .default).2 =
    some (.ok (some (.num (.int 2)))) := by
  cbv

theorem locate_countedTwice :
    locate countedTwice ⟨["a"]⟩ (counted.context.merge anew.own) =
      .expression ⟨⟨[".a"]⟩, "${[count(), b]}", .empty, []⟩ := by
  cbv

/-- The count stays the same when the other expression has been read in between. -/
theorem counted_remembered : ∃ t₃, ((countedOnce.get .root "b" .default).1).get .root "a" .default =
    (t₃, some (.ok (some (.arr [.num (.int 1), .num (.int 2)])))) ∧
      t₃.world = (countedOnce.get .root "b" .default).1.world := by
  have hquiet : ¬ (Traffic.idle counted).Pending := by
    rintro ⟨asked, reading, hm, -⟩
    cases hm
  have hresolve : Path.root.resolve "a" = .ok ⟨["a"]⟩ := by cbv
  have hfirst : counted.Gives .root "a" anew
      (.ok (some (.arr [.num (.int 1), .num (.int 2)]))) countedOnce :=
    gives_of_get (Prod.ext rfl counted_gives)
  have hsecond : countedOnce.Rereads (countedOnce.get .root "b" .default).1 :=
    .read rfl (gives_of_get (Prod.ext rfl countedOnce_gives))
  exact (get_remembered countedTwice countingCalls .empty [] rfl hquiet rfl (by cbv) hresolve
    locate_countedTwice hfirst (.single hsecond)).1

end Tree

end LiveDoc

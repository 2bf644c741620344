import LiveDoc.Proofs.Interference
import LiveDoc.Proofs.Renewal
import LiveDoc.Proofs.Sharing

/-! # Changes of the global context

Reads go on side by side while the global context changes. Once all reads have ended, the tree reads as a
new one if all that it keeps is right, and that it is as long as no read under way sees a change.
-/

namespace LiveDoc

variable {σ : Type}

/-- No mapping of a value declares a context. -/
def Value.Contextless (document : Value) : Prop :=
  ∀ keys child, document.descend? keys = some child → Context.own child = .empty

namespace Value

theorem contextless_str (s : String) : (str s).Contextless := by
  intro keys child h
  cases keys with
  | nil =>
    cases h
    rfl
  | cons key rest => cases h

theorem contextless_obj {members : Members} (hown : Context.ofMembers members = .empty)
    (h : ∀ e ∈ members, e.2.Contextless) : (obj members).Contextless := by
  intro keys part hp
  cases keys with
  | nil =>
    cases hp
    exact hown
  | cons key rest =>
    obtain ⟨child, hc, hp⟩ := Option.bind_eq_some_iff.1 hp
    exact h _ (Assoc.mem_of_lookup hc) rest part hp

end Value

namespace Tree

variable (document : Value) (options : Options σ) (host : σ)
  (f : String → List Value → Except String Value)

/-- What reads of a document are answered with under a context. -/
def settingIn (context : Context) : Setting :=
  newSetting document { options with context := context } host f .empty

/-- A world with the document as it was at first. -/
structure Unwritten (w : World σ) : Prop where
  document_eq : w.document = document
  epoch_eq : w.cache.epoch = 0
  timely : w.cache.Timely

/-- An unwritten world in which all that is kept is right under every clean context. -/
structure Sound (w : World σ) : Prop extends Unwritten document w where
  faithful : ∀ context, Context.Clean context →
    w.cache.Faithful (settingIn document options host f context) False

variable {document options host f} {call context context' : Context} {I : World σ → Prop}
  {pinned : Prop}

namespace Unwritten

variable {w : World σ} (h : Unwritten document w)

include h

theorem withHost (host : σ) : Unwritten document { w with host := host } :=
  ⟨h.document_eq, h.epoch_eq, h.timely⟩

theorem begin : Unwritten document { w with cache := w.cache.begin } :=
  ⟨h.document_eq, h.epoch_eq, h.timely.begin⟩

theorem finish (epoch : Nat) : Unwritten document { w with cache := w.cache.finish epoch } :=
  ⟨h.document_eq, h.epoch_eq, h.timely.finish epoch⟩

theorem insert (key : CacheKey) {entry : CacheEntry} (he : entry.epoch = 0) :
    Unwritten document { w with cache := w.cache.insert key entry } :=
  ⟨h.document_eq, h.epoch_eq, h.timely.insert key (Nat.le_of_eq (he.trans h.epoch_eq.symm))⟩

theorem setContext (context : Context) :
    Unwritten document { w with context := context, cache := w.cache.clear } :=
  ⟨h.document_eq, (Cache.prune_epoch _).trans h.epoch_eq, h.timely.clear⟩

/-- Where nothing is kept, nothing is wrong. -/
theorem sound (hnone : ∀ key, w.cache.lookup key = none) : Sound document options host f w where
  toUnwritten := h
  faithful _ _ := ⟨h.timely, fun key entry hl => by
    rw [hnone key] at hl
    cases hl⟩

end Unwritten

theorem settingIn_locates {site : Site} :
    (settingIn document options host f context).Locates site ↔
      ∃ path, locate document path context = .expression site :=
  newSetting_locates

/-- Where no mapping declares a context, keys tell the contexts of evaluations. -/
theorem carries_of_contextless (hplain : document.Contextless) (hc : context.Clean)
    (hc' : context'.Clean) (traced : Prop) :
    (settingIn document options host f context).Carries traced
      (settingIn document options host f context') := by
  have hcontext {base : Context} {site : Site}
      (h : (settingIn document options host f base).Locates site) : site.context = base := by
    obtain ⟨path, h⟩ := settingIn_locates.1 h
    refine locate_context (P := (· = base)) (fun keys child c hk hc => ?_) rfl h
    rw [hplain keys child hk, ← hc]
    rfl
  intro site site' hs hs' hk
  have hscope : site.context.fingerprint = site'.context.fingerprint := congrArg CacheKey.scope hk
  rw [hcontext hs, hcontext hs'] at hscope
  obtain rfl := Context.fingerprint_injective hc hc' hscope
  have hS : (settingIn document options host f context).Coherent := setting_coherent _ f _
  exact hS.carries traced site site' hs hs' hk

/-! ## Promises that outlast changes of the context -/

/-- A promised world, in which a context of the call comes to a given context if that is pinned. -/
def Promised (I : World σ → Prop) (pinned : Prop) (call context : Context) (w : World σ) : Prop :=
  I w ∧ (pinned → w.context.merge call = context)

theorem promised_congr (h : pinned → context = context') :
    Promised I pinned call context = Promised I pinned call context' := by
  funext w
  refine propext (and_congr_right fun _ => forall_congr' fun hpinned => ?_)
  rw [h hpinned]

/-- The promise outlasts changes of the host and of the context, and every read keeps to it. -/
structure Lasting (options : Options σ) (I : World σ → Prop) (pinned : Prop) : Prop where
  host : ∀ w host, I w → I { w with host := host }
  setContext : ∀ w context, I w → I { w with context := context, cache := w.cache.clear }
  read : ∀ call context fallback path fresh w, context.Clean → Promised I pinned call context w →
    (Request.read ⟨options, call, fallback⟩ path fresh w).Safe (Promised I pinned call context)
      (fun _ => True) w.context

theorem upholds_free (ho : options.onError = none) (fallback : Option Value) :
    (Request.mk options call fallback).Upholds .free
      (Promised (Unwritten document) False call context) where
  onError := ho
  found _ _ _ := trivial
  called _ _ _ _ _ _ _ _ := trivial
  kept _ _ _ _ _ _ := trivial
  rendered site _ := Contract.free_keeps (Plan.render site)
  host _ host hw := ⟨hw.1.withHost host, nofun⟩
  begin _ hw := ⟨hw.1.begin, nofun⟩
  finish _ epoch hw := ⟨hw.1.finish epoch, nofun⟩
  keep _ _ _ _ _ hw hv _ _ := ⟨hw.1.insert _ hv.1.epoch_eq, nofun⟩

/-- No read writes to the document, whatever contexts it sees. -/
theorem lasting_unwritten (ho : options.onError = none) :
    Lasting options (Unwritten document) False where
  host _ host h := h.withHost host
  setContext _ context h := h.setContext context
  read _ _ fallback _ _ _ _ hw := Request.safe_read (upholds_free ho fallback)
    (Contract.free_keeps _) hw

theorem upholds_contract (hp : options.Pure f) (hplain : document.Contextless) (hc : context.Clean)
    (fallback : Option Value) : (Request.mk options call fallback).Upholds
      (settingIn document options host f context).contract
      (Promised (Sound document options host f) True call context) where
  onError := hp.onError
  found w path hw := by
    rw [hw.1.document_eq, hw.2 trivial]
    rfl
  called name r hr args asked host v ha := by
    have hv : .ok v = f name args := hp.computes name r hr args asked host _ ha
    show Request.outcome ⟨options, .empty, none⟩ f name args = .ok v
    simp only [Request.outcome, hr, ← hv]
  kept w site entry hw hs hl := by
    obtain ⟨n, a, ha, hv, -⟩ := (hw.1.faithful context hc).sound _ entry hl site hs rfl
    exact ⟨n, a, ha, hv⟩
  rendered site _ := Setting.contract_render site
  host _ host hw := ⟨⟨hw.1.withHost host, hw.1.faithful⟩, hw.2⟩
  begin _ hw := ⟨⟨hw.1.begin, fun context hc =>
    ⟨hw.1.timely.begin, (hw.1.faithful context hc).sound⟩⟩, hw.2⟩
  finish _ epoch hw := ⟨⟨hw.1.finish epoch, fun context hc =>
    ⟨hw.1.timely.finish epoch, (hw.1.faithful context hc).sound⟩⟩, hw.2⟩
  keep w v site value reads hw hv hs hvalue := by
    obtain ⟨n, a, ha, rfl⟩ := hvalue
    have hepoch := hv.1.epoch_eq
    refine ⟨⟨hw.1.insert _ hepoch, fun context' hc' => ?_⟩, hw.2⟩
    exact (hw.1.faithful context' hc').carried (carries_of_contextless hplain hc hc' False)
      (.insert hw.1.timely hs ha rfl (hepoch.trans hw.1.epoch_eq.symm) False.elim)

/-- Reads that see no change of the context keep right results only. -/
theorem lasting_sound (hp : options.Pure f) (hplain : document.Contextless) :
    Lasting options (Sound document options host f) True where
  host _ host h := ⟨h.withHost host, h.faithful⟩
  setContext _ context h := (h.toUnwritten.setContext context).sound (Cache.lookup_clear _)
  read _ _ fallback path fresh _ hc hw := Request.safe_read (upholds_contract hp hplain hc fallback)
    (Setting.contract_keeps (Plan.evaluates_resolve fresh path) fun _ _ _ => trivial) hw

end Tree

/-- A tree with all reads that were begun on it, each with the context of its call. -/
structure Session (σ : Type) where
  tree : Tree σ
  calls : List (Context × Reading σ)

namespace Session

/-- All reads have ended. -/
def AtRest (s : Session σ) : Prop :=
  ∀ e ∈ s.calls, (s.tree.result? e.2).isSome = true

/-- To the reads under way another global context comes to the same as the present one. -/
def Unseen (s : Session σ) (context : Context) : Prop :=
  ∀ e ∈ s.calls, s.tree.result? e.2 = none →
    context.merge e.1 = s.tree.context.merge e.1

/-- A read is begun or goes on as far as possible, the host changes, or the global context does, if that
is allowed. -/
inductive Proceeds (P : Session σ → Context → Prop) : Session σ → Session σ → Prop where
  | start (s : Session σ) (base : Path) (text : String) {asked : ReadOptions}
    (clean : asked.own.Clean) :
    Proceeds P s ⟨(s.tree.start base text asked).1,
      (asked.own, (s.tree.start base text asked).2) :: s.calls⟩
  | poll (tree : Tree σ) (front back : List (Context × Reading σ)) (call : Context)
    (reading : Reading σ) :
    Proceeds P ⟨tree, front ++ (call, reading) :: back⟩
      ⟨(tree.poll reading).1, front ++ (call, (tree.poll reading).2) :: back⟩
  | host (s : Session σ) (host : σ) :
    Proceeds P s ⟨{ s.tree with world := { s.tree.world with host := host } }, s.calls⟩
  | setContext (s : Session σ) {context : Context} (clean : context.Clean)
    (allowed : P s context) : Proceeds P s ⟨s.tree.setContext context, s.calls⟩

/-- Any interleaving of reads with changes of the global context that are allowed. -/
def Runs (P : Session σ → Context → Prop) : Session σ → Session σ → Prop :=
  Relation.ReflTransGen (Proceeds P)

/-- The world is as promised, and so it stays whatever the reads under way will do in it. -/
structure Secure (options : Options σ) (I : World σ → Prop) (pinned : Prop) (s : Session σ) :
    Prop where
  options_eq : s.tree.options = options
  clean : s.tree.context.Clean
  world : I s.tree.world
  calls_clean : ∀ e ∈ s.calls, e.1.Clean
  alone : ∀ call p, (call, .alone p) ∈ s.calls →
    p.Safe (Tree.Promised I pinned call (s.tree.context.merge call))
  /-- Whoever began a shared evaluation is among the calls. -/
  shared : ∀ n p, s.tree.shared[n]? = some p → ∃ call, (call, .joined n) ∈ s.calls ∧
    p.Safe (Tree.Promised I pinned call (s.tree.context.merge call))
  inflight : ∀ e ∈ s.tree.inflight, ∃ p, s.tree.shared[e.2]? = some p ∧ p.result? = none

namespace Secure

variable {options : Options σ} {I : World σ → Prop} {pinned : Prop} {s : Session σ}
  {calls : List (Context × Reading σ)}

/-- A read on its own has gone on, or the host has changed. -/
theorem of_world (h : s.Secure options I pinned) {w : World σ} (hw : I w)
    (hc : w.context = s.tree.context)
    (hcalls : ∀ e ∈ calls, e ∈ s.calls ∨ e.1.Clean ∧ ∃ p, e.2 = .alone p ∧
      p.Safe (Tree.Promised I pinned e.1 (s.tree.context.merge e.1)))
    (hjoined : ∀ call n, (call, .joined n) ∈ s.calls → (call, .joined n) ∈ calls) :
    Secure options I pinned ⟨{ s.tree with world := w }, calls⟩ := by
  have hc : Tree.context { s.tree with world := w } = s.tree.context := hc
  refine ⟨h.options_eq, hc ▸ h.clean, hw, fun e he => ?_, fun call p he => ?_, fun n p hp => ?_,
    h.inflight⟩
  · rcases hcalls e he with he | ⟨he, -⟩
    · exact h.calls_clean e he
    · exact he
  · rw [hc]
    rcases hcalls _ he with he | ⟨-, q, hq, hsafe⟩
    · exact h.alone call p he
    · cases hq
      exact hsafe
  · rw [hc]
    obtain ⟨call, hcall, hsafe⟩ := h.shared n p hp
    exact ⟨call, hjoined call n hcall, hsafe⟩

/-- A shared evaluation was begun or has gone on. -/
theorem keepShared (h : s.Secure options I pinned) {t : Tree σ} {n : Nat}
    {step : Step σ ReadResult} {call : Context} (ho : t.options = s.tree.options)
    (hn : n < t.shared.length) (hshared : ∀ m ≠ n, t.shared[m]? = s.tree.shared[m]?)
    (hinflight : ∀ e ∈ t.inflight, e ∈ s.tree.inflight ∨ e.2 = n)
    (hsub : ∀ e ∈ s.calls, e ∈ calls)
    (hcalls : ∀ e ∈ calls, e ∈ s.calls ∨ e.1.Clean ∧ e.2 = .joined n)
    (hcall : (call, .joined n) ∈ calls)
    (hsafe : step.Safe (Tree.Promised I pinned call (s.tree.context.merge call)) (fun _ => True)
      s.tree.context) : Secure options I pinned ⟨t.keepShared n step, calls⟩ := by
  obtain ⟨hopts, hworld, hset⟩ := t.keepShared_eq n step
  obtain ⟨hw, hcontext⟩ := hsafe.world
  have hc : (t.keepShared n step).context = s.tree.context := by
    rw [Tree.context, hworld, hcontext]
  refine ⟨hopts.trans (ho.trans h.options_eq), hc ▸ h.clean, hworld ▸ hw.1, fun e he => ?_,
    fun c p he => ?_, fun m p hp => ?_, fun e he => ?_⟩
  · rcases hcalls e he with he | ⟨he, -⟩
    · exact h.calls_clean e he
    · exact he
  · rw [hc]
    rcases hcalls _ he with he | ⟨-, he⟩
    · exact h.alone c p he
    · cases he
  · rw [hc]
    rw [hset] at hp
    by_cases hm : m = n
    · subst hm
      rw [List.getElem?_set_self hn, Option.some.injEq] at hp
      subst hp
      exact ⟨call, hcall, Progress.safe_ofStep hsafe⟩
    · rw [List.getElem?_set_ne (Ne.symm hm), hshared m hm] at hp
      obtain ⟨c, hmem, hs⟩ := h.shared m p hp
      exact ⟨c, hsub _ hmem, hs⟩
  · obtain ⟨he, hwaits⟩ := Tree.mem_inflight_keepShared.1 he
    rw [hset]
    by_cases hm : e.2 = n
    · exact ⟨_, by rw [hm, List.getElem?_set_self hn], hwaits hm⟩
    · rw [List.getElem?_set_ne (Ne.symm hm), hshared _ hm]
      exact h.inflight e (hinflight e he |>.resolve_right hm)

/-- What is left of a read goes on safely. -/
theorem safe_poll (h : s.Secure options I pinned) (hI : Tree.Lasting options I pinned)
    {p : Progress σ ReadResult} {call : Context}
    (hp : p.Safe (Tree.Promised I pinned call (s.tree.context.merge call))) :
    (p.poll s.tree.world).Safe (Tree.Promised I pinned call (s.tree.context.merge call))
      (fun _ => True) s.tree.context :=
  hp.poll (fun w host hw => ⟨hI.host w host hw.1, hw.2⟩) ⟨h.world, fun _ => rfl⟩

theorem pollShared (h : s.Secure options I pinned) (hI : Tree.Lasting options I pinned) (n : Nat) :
    Secure options I pinned ⟨s.tree.pollShared n, s.calls⟩ := by
  unfold Tree.pollShared
  cases hp : s.tree.shared[n]? with
  | none => exact h
  | some p =>
    obtain ⟨call, hcall, hsafe⟩ := h.shared n p hp
    exact h.keepShared rfl (List.getElem?_eq_some_iff.1 hp).1 (fun _ _ => rfl) (fun _ => .inl)
      (fun _ => id) (fun _ => .inl) hcall (h.safe_poll hI hsafe)

theorem poll {tree : Tree σ} {front back : List (Context × Reading σ)} {call : Context}
    {reading : Reading σ} (h : Secure options I pinned ⟨tree, front ++ (call, reading) :: back⟩)
    (hI : Tree.Lasting options I pinned) : Secure options I pinned
      ⟨(tree.poll reading).1, front ++ (call, (tree.poll reading).2) :: back⟩ := by
  have hmem : (call, reading) ∈ front ++ (call, reading) :: back := by simp
  have hclean : call.Clean := h.calls_clean _ hmem
  cases reading with
  | joined n => exact h.pollShared hI n
  | alone p =>
    have hstep := h.safe_poll hI (h.alone call p hmem)
    refine h.of_world hstep.world.1.1 hstep.world.2 (fun e he => ?_) fun c n he => ?_
    · rcases List.mem_append.1 he with he | he
      · exact .inl (List.mem_append_left _ he)
      · rcases List.mem_cons.1 he with rfl | he
        · exact .inr ⟨hclean, _, rfl, Progress.safe_ofStep hstep⟩
        · exact .inl (List.mem_append_right _ (List.mem_cons_of_mem _ he))
    · rcases List.mem_append.1 he with he | he
      · exact List.mem_append_left _ he
      · exact List.mem_append_right _ (List.mem_cons_of_mem _
          ((List.mem_cons.1 he).resolve_left (by simp)))

/-- A read has joined a shared evaluation. -/
theorem join (h : s.Secure options I pinned) {call : Context} (hc : call.Clean) (n : Nat) :
    Secure options I pinned ⟨s.tree, (call, .joined n) :: s.calls⟩ where
  options_eq := h.options_eq
  clean := h.clean
  world := h.world
  calls_clean := List.forall_mem_cons.2 ⟨hc, h.calls_clean⟩
  alone c p he := h.alone c p ((List.mem_cons.1 he).resolve_left (by simp))
  shared m p hp := by
    obtain ⟨c, hmem, hsafe⟩ := h.shared m p hp
    exact ⟨c, List.mem_cons_of_mem _ hmem, hsafe⟩
  inflight := h.inflight

theorem startAt (h : s.Secure options I pinned) (hI : Tree.Lasting options I pinned) (path : Path)
    {asked : ReadOptions} (hc : asked.own.Clean) : Secure options I pinned
      ⟨(s.tree.startAt path asked).1, (asked.own, (s.tree.startAt path asked).2) :: s.calls⟩ := by
  have hrequest : s.tree.request asked = ⟨options, asked.own, asked.fallback⟩ := by
    rw [Tree.request, h.options_eq]
    rfl
  have hstep (fresh : Bool) := hI.read asked.own (s.tree.context.merge asked.own) asked.fallback
    path fresh s.tree.world (h.clean.merge hc) ⟨h.world, fun _ => rfl⟩
  unfold Tree.startAt
  rw [hrequest]
  cases hfresh : asked.fresh with
  | true =>
    simp only [if_true]
    refine h.of_world (hstep true).world.1.1 (hstep true).world.2 (fun e he => ?_)
      fun c n he => List.mem_cons_of_mem _ he
    rcases List.mem_cons.1 he with rfl | he
    · exact .inr ⟨hc, _, rfl, Progress.safe_ofStep (hstep true)⟩
    · exact .inl he
  | false =>
    simp only [Bool.false_eq_true, if_false]
    cases hl : s.tree.inflight.lookup (s.tree.readKey path asked) with
    | some number => exact (h.pollShared hI number).join hc number
    | none =>
      simp only
      refine h.keepShared rfl (by simp) (fun m hm => getElem?_append_singleton_of_ne hm)
        (fun e he => ?_) (fun e he => List.mem_cons_of_mem _ he) (fun e he => ?_)
        List.mem_cons_self (hstep false)
      · exact (List.mem_append.1 he).imp id fun he => by rw [List.mem_singleton.1 he]
      · exact (List.mem_cons.1 he).symm.imp id fun he => by rw [he]; exact ⟨hc, rfl⟩

theorem start (h : s.Secure options I pinned) (hI : Tree.Lasting options I pinned) (base : Path)
    (text : String) {asked : ReadOptions} (hc : asked.own.Clean) : Secure options I pinned
      ⟨(s.tree.start base text asked).1, (asked.own, (s.tree.start base text asked).2) :: s.calls⟩ := by
  unfold Tree.start
  cases base.resolve text with
  | ok path => exact h.startAt hI path hc
  | error e =>
    refine h.of_world h.world rfl (fun e he => ?_) fun c n he => List.mem_cons_of_mem _ he
    rcases List.mem_cons.1 he with rfl | he
    · exact .inr ⟨hc, _, rfl, trivial⟩
    · exact .inl he

/-- What is left of a read is as safe under another context, if the read does not see it or contexts are
not pinned. -/
theorem safe_of_unseen {p : Progress σ ReadResult} {call context context' : Context}
    (hp : p.Safe (Tree.Promised I pinned call context))
    (unseen : pinned → p.result? = none → context' = context) :
    p.Safe (Tree.Promised I pinned call context') := by
  cases hr : p.result? with
  | some r => exact Progress.safe_of_result (by rw [hr]; rfl)
  | none =>
    rw [Tree.promised_congr fun hpinned => unseen hpinned hr]
    exact hp

/-- A change of the context keeps reads secure if contexts are not pinned or none of them sees it. -/
theorem setContext (h : s.Secure options I pinned) (hI : Tree.Lasting options I pinned)
    {context : Context} (hc : context.Clean) (unseen : pinned → s.Unseen context) :
    Secure options I pinned ⟨s.tree.setContext context, s.calls⟩ where
  options_eq := h.options_eq
  clean := hc
  world := hI.setContext _ context h.world
  calls_clean := h.calls_clean
  alone call p he := safe_of_unseen (h.alone call p he) fun hpinned hr => unseen hpinned _ he hr
  shared n p hn := by
    obtain ⟨call, hcall, hsafe⟩ := h.shared n p hn
    refine ⟨call, hcall, safe_of_unseen hsafe fun hpinned hr => unseen hpinned _ hcall ?_⟩
    have hn : s.tree.shared[n]? = some p := hn
    rw [Tree.result?, hn, Option.bind_some, hr]
  inflight := h.inflight

theorem proceeds (h : s.Secure options I pinned) (hI : Tree.Lasting options I pinned)
    {P : Session σ → Context → Prop} (hP : ∀ s context, P s context → pinned → s.Unseen context)
    {s' : Session σ} (hs : Proceeds P s s') : s'.Secure options I pinned := by
  cases hs with
  | start _ base text clean => exact h.start hI base text clean
  | poll => exact h.poll hI
  | host _ host => exact h.of_world (hI.host _ host h.world) rfl (fun _ => .inl) fun _ _ => id
  | setContext _ clean allowed => exact h.setContext hI clean (hP _ _ allowed)

/-- Reads that are secure stay so along every run. -/
theorem runs (h : s.Secure options I pinned) (hI : Tree.Lasting options I pinned)
    {P : Session σ → Context → Prop} (hP : ∀ s context, P s context → pinned → s.Unseen context)
    {s' : Session σ} (hr : Runs P s s') : s'.Secure options I pinned := by
  induction hr with
  | refl => exact h
  | tail _ hs ih => exact ih.proceeds hI hP hs

theorem of_new {document : Value} {host : σ} {t : Tree σ}
    (hnew : Tree.ofValue document options host = .ok t) (hc : options.context.Clean) :
    Secure options (Tree.Unwritten document) False ⟨t, []⟩ := by
  obtain ⟨-, rfl⟩ := Tree.ofValue_eq_ok.1 hnew
  exact ⟨rfl, hc, ⟨rfl, rfl, Cache.timely_empty⟩, nofun, nofun, nofun, nofun⟩

/-- At rest any other promise that the world fulfils may take the place of the one that was kept. -/
theorem at_rest (h : s.Secure options I pinned) (rest : s.AtRest) {J : World σ → Prop}
    (hJ : J s.tree.world) (pinned' : Prop) : s.Secure options J pinned' where
  options_eq := h.options_eq
  clean := h.clean
  world := hJ
  calls_clean := h.calls_clean
  alone call p he := Progress.safe_of_result (rest _ he)
  shared n p hn := by
    obtain ⟨call, hcall, -⟩ := h.shared n p hn
    have hended := rest _ hcall
    rw [Tree.result?, hn, Option.bind_some] at hended
    exact ⟨call, hcall, Progress.safe_of_result hended⟩
  inflight := h.inflight

theorem inflight_eq_nil (h : s.Secure options I pinned) (rest : s.AtRest) :
    s.tree.inflight = [] := by
  refine List.eq_nil_iff_forall_not_mem.2 fun e he => ?_
  obtain ⟨p, hn, hr⟩ := h.inflight e he
  obtain ⟨call, hcall, -⟩ := h.shared e.2 p hn
  have hended := rest _ hcall
  simp [Tree.result?, hn, hr] at hended

end Secure

/-- Once all reads have ended, whatever changes of the global context they have seen, a tree over a
document without contexts reads as a new one exactly if all that it keeps is right. If it then keeps
nothing, it reads as a new one whenever all reads have ended, as long as no read under way sees a
change. -/
theorem readsAsNew_at_rest {document : Value} {options : Options σ} {host : σ}
    {f : String → List Value → Except String Value} {t₀ : Tree σ} {s : Session σ}
    (hp : options.Pure f) (ha : options.Answers)
    (hnew : Tree.ofValue document options host = .ok t₀) (hplain : document.Contextless)
    (hc : options.context.Clean) (hrun : Runs (fun _ _ => True) ⟨t₀, []⟩ s) (rest : s.AtRest) :
    (s.tree.ReadsAsNew Context.Clean ↔ s.tree.KeepsRight Context.Clean fun _ _ => True) ∧
    ((∀ key, s.tree.world.cache.lookup key = none) →
      ∀ s', Runs Unseen s s' → s'.AtRest → s'.tree.ReadsAsNew Context.Clean) := by
  have h : s.Secure options (Tree.Unwritten document) False :=
    (Secure.of_new hnew hc).runs (Tree.lasting_unwritten hp.onError) (fun _ _ _ => False.elim) hrun
  obtain ⟨hm, -⟩ := Tree.ofValue_eq_ok.1 hnew
  obtain rfl := h.options_eq
  have hdoc : s.tree.document = document := h.world.document_eq
  refine ⟨Tree.readsAsNew_iff hp ha (h.inflight_eq_nil rest) (hdoc ▸ hm) h.world.timely, ?_⟩
  intro hnone s' hrun' rest'
  have h' : s'.Secure s.tree.options (Tree.Sound document s.tree.options host f) True :=
    (h.at_rest rest (h.world.sound hnone) True).runs (Tree.lasting_sound hp hplain)
      (fun _ _ hP _ => hP) hrun'
  have ho := h'.options_eq
  have hdoc' : s'.tree.document = document := h'.world.document_eq
  refine Tree.readsAsNew_of_faithful (ho ▸ hp) (ho ▸ ha) (h'.inflight_eq_nil rest') (hdoc' ▸ hm)
    fun c hc => ?_
  have hS : Tree.settingIn document s.tree.options host f (s'.tree.context.merge c) =
      s'.tree.setting f c := by
    rw [← ho, ← hdoc']
    rfl
  rw [← hS]
  exact h'.world.faithful _ (h'.clean.merge hc)

/-- A resolver that answers when it is asked again. -/
def later : Resolver Unit :=
  ⟨fun _ asked host => (if asked = 0 then none else some (.ok .null), host)⟩

def language (name : String) : Context :=
  .ofList [("lang", name)]

def waiting (global : Context) : Options Unit :=
  { (Options.default : Options Unit) with context := global, registry := .ofList [("w", later)] }

/-- A text in two languages, and an expression that quotes it after it has waited. -/
def bilingual : Value :=
  .obj [("a", .str "x"), ("a:es", .str "y"), (".e", .str "${w() ?? a}")]

/-- A new tree under a global context. -/
def opened (global : Context) : Session Unit :=
  ⟨.ofDocument bilingual (waiting global) (), []⟩

/-- A read of the expression has begun. -/
def begun (global : Context) (asked : ReadOptions) : Session Unit :=
  let started := (opened global).tree.start .root "e" asked
  ⟨started.1, [(asked.own, started.2)]⟩

/-- It has ended after English has become the global language. -/
def ended (global : Context) (asked : ReadOptions) : Session Unit :=
  let started := (opened global).tree.start .root "e" asked
  let polled := (started.1.setContext (language "en")).poll started.2
  ⟨polled.1, [(asked.own, polled.2)]⟩

theorem language_clean {name : String} (h : Context.Unseparated name) : (language name).Clean := by
  intro e he
  obtain rfl : e = ("lang", name) := List.mem_singleton.1 he
  have hname : Context.Unseparated "lang" := ⟨by decide, by decide⟩
  exact ⟨hname, h⟩

theorem runs_ended {P : Session Unit → Context → Prop} {global : Context} {asked : ReadOptions}
    (hc : asked.own.Clean) (allowed : P (begun global asked) (language "en")) :
    Runs P (opened global) (ended global asked) := by
  have hstart := Proceeds.start (P := P) (opened global) .root "e" hc
  have hen : (language "en").Clean := language_clean ⟨by decide, by decide⟩
  exact .tail (.tail (.single hstart) (.setContext _ hen allowed)) (.poll _ [] [] _ _)

theorem eq_later {global : Context} {name : String} {r : Resolver Unit}
    (h : (waiting global).registry.get? name = some r) : r = later := by
  obtain ⟨e, he, rfl⟩ := Option.map_eq_some_iff.1 h
  rw [List.mem_singleton.1 (List.mem_of_find?_eq_some he)]

theorem waiting_pure (global : Context) : (waiting global).Pure fun _ _ => .ok .null where
  onError := rfl
  computes name r hr args asked host answer ha := by
    obtain rfl := eq_later hr
    simp only [later, Option.ite_none_left_eq_some, Option.some.injEq] at ha
    exact ha.2.symm

theorem waiting_answers (global : Context) : (waiting global).Answers := by
  intro name r hr args
  obtain rfl := eq_later hr
  refine ⟨1, fun asked host h => ?_⟩
  have hne : asked ≠ 0 := by omega
  simp only [later, if_neg hne, Option.isSome_some]

theorem own_language_unseen :
    (begun .empty (.under (language "es"))).Unseen (language "en") := by
  intro e he _
  have hentries : (begun .empty (.under (language "es"))).tree.context.entries = [] := by cbv
  rw [List.mem_singleton.1 he, Table.eq_of_entries (u := .empty) hentries]
  rfl

/-- A read in a language of its own does not see the global language change. -/
theorem readsAsNew_own_language :
    (ended .empty (.under (language "es"))).AtRest ∧
      (ended .empty (.under (language "es"))).tree.ReadsAsNew Context.Clean := by
  have hfirst : (opened .empty).AtRest := nofun
  have hrest : (ended .empty (.under (language "es"))).AtRest := by
    intro e he
    rw [List.mem_singleton.1 he]
    cbv
  have hes : (language "es").Clean := language_clean ⟨by decide, by decide⟩
  have hplain : bilingual.Contextless := by
    refine Value.contextless_obj rfl fun e he => ?_
    simp only [List.mem_cons, List.not_mem_nil, or_false] at he
    rcases he with rfl | rfl | rfl <;> exact Value.contextless_str _
  have hnew : Tree.ofValue bilingual (waiting .empty) () = .ok (opened .empty).tree :=
    Tree.ofValue_eq_ok.2 ⟨rfl, rfl⟩
  have hrun : Runs Unseen (opened .empty) (ended .empty (.under (language "es"))) :=
    runs_ended hes own_language_unseen
  have hopened := readsAsNew_at_rest (waiting_pure _) (waiting_answers _) hnew hplain
    Context.clean_empty (s := opened .empty) .refl hfirst
  exact ⟨hrest, hopened.2 (fun _ => rfl) _ hrun hrest⟩

/-- A read that sees the global language change keeps the text of the new language for the old one. -/
theorem kept_across_languages :
    (ended (language "es") .default).AtRest ∧
      ((ended (language "es") .default).tree.get .root "e" (.under (language "es"))).2 =
        some (.ok (some (.str "x"))) ∧
      (((ended (language "es") .default).tree.renewed ()).get .root "e"
        (.under (language "es"))).2 = some (.ok (some (.str "y"))) := by
  refine ⟨?_, ?_, ?_⟩
  · intro e he
    rw [List.mem_singleton.1 he]
    cbv
  · cbv
  · cbv

end Session

end LiveDoc

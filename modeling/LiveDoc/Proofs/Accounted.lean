import LiveDoc.Proofs.Runs
import LiveDoc.Proofs.Sites
import LiveDoc.Proofs.Stamps

/-! # What a read comes to

A read gives the value that its plan has without memory, or it fails. It adds to what is kept only
results that have an account, and it fails on a plan with an account only by nesting too deep.
-/

namespace LiveDoc

namespace Frame

theorem mem_reads_record {f : Frame} {slots : List Path} {slot : Path} :
    slot ∈ (f.record slots).reads ↔ slot ∈ f.reads ∨ slot ∈ slots := by
  have h (reads : List Path) : slot ∈ slots.foldl (fun reads slot => reads.insert slot) reads ↔
      slot ∈ reads ∨ slot ∈ slots := by
    induction slots generalizing reads with
    | nil => simp
    | cons s rest ih =>
      rw [List.foldl_cons, ih, List.mem_insert_iff, List.mem_cons]
      tauto
  exact h f.reads

end Frame

namespace Stack

/-- The innermost evaluation, if there is one, has read some slots more. -/
def Grown (reads : List Path) : Stack → Stack → Prop
  | [], s' => s' = []
  | f :: rest, s' => ∃ f' : Frame, s' = f' :: rest ∧ f'.path = f.path ∧
      f'.keepable = f.keepable ∧ ∀ slot, slot ∈ f'.reads ↔ slot ∈ f.reads ∨ slot ∈ reads

variable {s s' s'' : Stack} {reads reads' : List Path}

theorem grown_nil (s : Stack) : s.Grown [] s := by
  cases s with
  | nil => rfl
  | cons f rest => exact ⟨f, rfl, rfl, rfl, by simp⟩

theorem grown_record (s : Stack) (slots : List Path) : s.Grown slots (s.record slots) := by
  cases s with
  | nil => rfl
  | cons f rest => exact ⟨f.record slots, rfl, rfl, rfl, fun _ => Frame.mem_reads_record⟩

theorem Grown.trans (h : s.Grown reads s') (h' : s'.Grown reads' s'') :
    s.Grown (reads ++ reads') s'' := by
  cases s with
  | nil =>
    cases h
    exact h'
  | cons f rest =>
    obtain ⟨f', rfl, hp, hk, hr⟩ := h
    obtain ⟨f'', rfl, hp', hk', hr'⟩ := h'
    refine ⟨f'', rfl, hp'.trans hp, hk'.trans hk, fun slot => ?_⟩
    rw [hr', hr, List.mem_append, or_assoc]

theorem Grown.map_path (h : s.Grown reads s') : s'.map (·.path) = s.map (·.path) := by
  cases s with
  | nil => cases h; rfl
  | cons f rest =>
    obtain ⟨f', rfl, hp, -, -⟩ := h
    simp [hp]

/-- Stacks with the same paths have frames for the same expressions. -/
theorem exists_of_paths (h : s'.map (·.path) = s.map (·.path)) {frame : Frame} (hf : frame ∈ s') :
    ∃ frame' ∈ s, frame'.path = frame.path := by
  have hm : frame.path ∈ s.map (·.path) := h ▸ List.mem_map_of_mem hf
  exact List.mem_map.1 hm

/-- What a finished evaluation has read counts as read by the one around it. -/
theorem grown_pop {f : Frame} (hk : f.keepable = true) (rest : Stack) :
    rest.Grown f.reads (Stack.pop (f :: rest)) := by
  cases rest with
  | nil => rfl
  | cons g rest =>
    exact ⟨g.absorb f, rfl, rfl, by simp [Frame.absorb, hk], fun _ => Frame.mem_reads_record⟩

end Stack

namespace Setting

/-- What is kept of an expression in one setting is right in another. -/
def Carries (traced : Prop) (S S' : Setting) : Prop :=
  ∀ site site', S.Locates site → S'.Locates site' → Request.keyOf site = Request.keyOf site' →
    ∀ n a, S.account n site = some a → ∃ m b, S'.account m site' = some b ∧ b.result = a.result ∧
      (traced → b.reads = a.reads ∧ b.uses = a.uses)

theorem Coherent.carries {S : Setting} (hS : S.Coherent) (traced : Prop) : S.Carries traced S := by
  intro site site' hs hs' hk n a ha
  rw [S.account_congr (hS site site' hs hs' (congrArg CacheKey.path hk))] at ha
  exact ⟨n, a, ha, rfl, fun _ => ⟨rfl, rfl⟩⟩

end Setting

namespace Cache

/-- A key has a kept result that is fresh. -/
def Known (c : Cache) (key : CacheKey) : Prop :=
  (c.lookup key).isSome = true

/-- If reads are traced, a result was read for as its account says, and all that it needed is
known. -/
def Backs (traced : Prop) (c : Cache) (a : Account Value) (reads : List Path) : Prop :=
  traced → (∀ slot, slot ∈ reads ↔ slot ∈ a.reads) ∧ ∀ key ∈ a.uses, c.Known key

/-- What is kept and fresh is right for all expressions that can be located. -/
structure Faithful (S : Setting) (traced : Prop) (c : Cache) : Prop where
  timely : c.Timely
  sound : ∀ key entry, c.lookup key = some entry → ∀ site, S.Locates site →
    Request.keyOf site = key →
    ∃ n a, S.account n site = some a ∧ a.result = entry.value ∧ c.Backs traced a entry.reads

/-- A cache after part of a read: nothing was written, nothing known is forgotten, and what is new
has an account. -/
structure Grows (S : Setting) (traced : Prop) (c c' : Cache) : Prop where
  epoch : c'.epoch = c.epoch
  running : c'.running = c.running
  timely : c.Timely → c'.Timely
  known : ∀ key, c.Known key → c'.Known key
  added : ∀ key entry, c'.lookup key = some entry → c.lookup key = some entry ∨
    ∃ site n a, S.Locates site ∧ Request.keyOf site = key ∧ S.account n site = some a ∧
      a.result = entry.value ∧ c'.Backs traced a entry.reads

variable {S : Setting} {traced : Prop} {c c' c'' : Cache}

theorem Grows.refl (c : Cache) : c.Grows S traced c :=
  ⟨rfl, rfl, id, fun _ => id, fun _ _ => .inl⟩

theorem Backs.mono {a : Account Value} {reads : List Path} (h : c.Backs traced a reads)
    (hk : ∀ key, c.Known key → c'.Known key) : c'.Backs traced a reads :=
  fun ht => ⟨(h ht).1, fun key hkey => hk key ((h ht).2 key hkey)⟩

theorem Grows.trans (h : c.Grows S traced c') (h' : c'.Grows S traced c'') :
    c.Grows S traced c'' where
  epoch := h'.epoch.trans h.epoch
  running := h'.running.trans h.running
  timely := h'.timely ∘ h.timely
  known key := h'.known key ∘ h.known key
  added key entry hl := by
    rcases h'.added key entry hl with hl | hnew
    · rcases h.added key entry hl with hl | ⟨site, n, a, hs, hk, ha, hv, hb⟩
      · exact .inl hl
      · exact .inr ⟨site, n, a, hs, hk, ha, hv, hb.mono h'.known⟩
    · exact .inr hnew

theorem known_insert (hc : c.Timely) (key : CacheKey) {entry : CacheEntry}
    (he : entry.epoch = c.epoch) {k : CacheKey} :
    (c.insert key entry).Known k ↔ k = key ∨ c.Known k := by
  rw [Known, hc.lookup_insert _ (Nat.le_of_eq he.symm)]
  split
  · next hk => simp [hk]
  · next hk => simp [hk, Known]

/-- A result of the present epoch that has an account may be kept. -/
theorem Grows.insert (hc : c.Timely) {site : Site} {n : Nat} {a : Account Value}
    {entry : CacheEntry} (hs : S.Locates site) (ha : S.account n site = some a)
    (hv : a.result = entry.value) (he : entry.epoch = c.epoch)
    (hb : (c.insert (Request.keyOf site) entry).Backs traced a entry.reads) :
    c.Grows S traced (c.insert (Request.keyOf site) entry) where
  epoch := rfl
  running := rfl
  timely _ := hc.insert _ (Nat.le_of_eq he)
  known key hk := (known_insert hc _ he).2 (.inr hk)
  added key entry' hl := by
    rw [hc.lookup_insert _ (Nat.le_of_eq he.symm)] at hl
    split at hl
    · next hk =>
      cases hl
      exact .inr ⟨site, n, a, hs, hk.symm, ha, hv, hb⟩
    · exact .inl hl

/-- An evaluation that begins and ends leaves the others running. -/
theorem Grows.of_begin (h : c.begin.Grows S traced c') :
    c.Grows S traced (c'.finish c.epoch) where
  epoch := h.epoch
  running := by
    rw [finish, h.running, begin, List.erase_cons_head]
  timely hc := (h.timely hc.begin).finish _
  known := h.known
  added := h.added

/-- What one setting adds to a cache is right in the settings that it carries over to. -/
theorem Faithful.carried {S' : Setting} (h : c.Faithful S' traced) (hS : S.Carries traced S')
    (hg : c.Grows S traced c') : c'.Faithful S' traced where
  timely := hg.timely h.timely
  sound key entry hl site hs hk := by
    rcases hg.added key entry hl with hl | ⟨site', n, a, hs', hk', ha, hv, hb⟩
    · obtain ⟨n, a, ha, hv, hb⟩ := h.sound key entry hl site hs hk
      exact ⟨n, a, ha, hv, hb.mono hg.known⟩
    · obtain ⟨m, b, hb', hv', ht⟩ := hS site' site hs' hs (hk'.trans hk.symm) n a ha
      refine ⟨m, b, hb', hv'.trans hv, fun htr => ?_⟩
      obtain ⟨hr, hu⟩ := ht htr
      rw [hr, hu]
      exact hb htr

theorem Faithful.grows (hS : S.Coherent) (h : c.Faithful S traced) (hg : c.Grows S traced c') :
    c'.Faithful S traced :=
  h.carried (hS.carries traced) hg

end Cache

/-- A failure because evaluations nest too deep. -/
def IsTooDeep {α : Type} (r : Except Fault α) : Prop :=
  ∃ limit path, r = .error ⟨.depth limit path, true⟩

def ReadResult.IsTooDeep (r : ReadResult) : Prop :=
  ∃ limit path, r = .error (.depth limit path)

/-- No expression under evaluation has an account that nests less than the given number. -/
def Setting.Clear (S : Setting) (n : Nat) (stack : Stack) : Prop :=
  ∀ frame ∈ stack, ∀ site, S.Locates site → site.path = frame.path → S.account n site = none

theorem Setting.Clear.of_paths {S : Setting} {n : Nat} {s s' : Stack} (h : S.Clear n s)
    (hp : s'.map (·.path) = s.map (·.path)) : S.Clear n s' := by
  intro frame hf site hs hpath
  obtain ⟨frame', hf', he⟩ := Stack.exists_of_paths hp hf
  exact h frame' hf' site hs (hpath.trans he.symm)

theorem Setting.Clear.le {S : Setting} {n m : Nat} {s : Stack} (h : S.Clear n s) (hmn : m ≤ n) :
    S.Clear m s := by
  intro frame hf site hs hpath
  cases ha : S.account m site with
  | none => rfl
  | some a =>
    have := h frame hf site hs hpath
    rw [S.account_le hmn ha] at this
    cases this

/-- An expression that is entered has no account that nests less than the least. -/
theorem Setting.Clear.enter {S : Setting} (hS : S.Coherent) {n k : Nat} {s : Stack} {site : Site}
    (hs : S.Locates site) (h : S.Clear n s) (hkn : k ≤ n) (hk : S.account k site = none) :
    S.Clear k (.enter site.path :: s) := by
  intro frame hframe site' hs' hpath
  rcases List.mem_cons.1 hframe with rfl | hframe
  · rw [Setting.account_congr (hS site' site hs' hs hpath), hk]
  · exact (h.le hkn) frame hframe site' hs' hpath

/-- What becomes of a run, given the accounts of what it carries out by how deep they nest. -/
structure Accounted {σ α : Type} (S : Setting) (traced : Prop) (accounts : Nat → Option (Account α))
    (left : Nat) (stack : Stack) (w : World σ) (r : Except Fault α) (stack' : Stack)
    (w' : World σ) : Prop where
  document : w'.document = w.document
  context : w'.context = w.context
  grows : w.cache.Grows S traced w'.cache
  ok : ∀ v, r = .ok v → ∃ n a reads, accounts n = some a ∧ a.result = v ∧
    stack.Grown reads stack' ∧ (traced → (∀ slot, slot ∈ reads ↔ slot ∈ a.reads) ∧
      (∀ key ∈ a.uses, w'.cache.Known key) ∧
      ∀ key, w'.cache.Known key → w.cache.Known key ∨ key ∈ a.uses)
  deep : ∀ n a, accounts n = some a → S.Clear n stack →
    (∃ v, r = .ok v) ∨ IsTooDeep r ∧ left < n

namespace Accounted

variable {σ α β : Type} {S : Setting} {traced : Prop} {left : Nat} {stack s stack' : Stack}
  {w v w' : World σ} {r : Except Fault α}

theorem done (result : Except Fault α) (stack : Stack) (w : World σ) :
    Accounted S traced (fun n => (Plan.done result).account S (S.account n)) left stack w result
      stack w := by
  refine ⟨rfl, rfl, .refl _, ?_, ?_⟩
  · rintro v rfl
    exact ⟨0, ⟨v, [], []⟩, [], rfl, rfl, Stack.grown_nil _, fun _ =>
      ⟨fun _ => Iff.rfl, fun _ h => absurd h List.not_mem_nil, fun _ => .inl⟩⟩
  · intro n a ha _
    cases result with
    | ok v => exact .inl ⟨v, rfl⟩
    | error fault => cases ha

theorem find {path : Path} {next : Found → Plan α}
    (h : Accounted S traced (fun n => (next (S.find path)).account S (S.account n)) left
      (stack.record (walkReads path)) w r stack' w') :
    Accounted S traced (fun n => (Plan.find path next).account S (S.account n)) left stack w r
      stack' w' := by
  have hrecord := Stack.grown_record stack (walkReads path)
  refine ⟨h.document, h.context, h.grows, fun b hb => ?_, fun n a ha hc => ?_⟩
  · obtain ⟨n, a, reads, ha, hv, hg, ht⟩ := h.ok b hb
    refine ⟨n, _, walkReads path ++ reads, Plan.account_find.2 ⟨a, ha, rfl⟩, hv, hrecord.trans hg,
      fun htr => ?_⟩
    obtain ⟨hr, hu, hk⟩ := ht htr
    refine ⟨fun slot => ?_, hu, hk⟩
    simp only [Account.after, List.mem_append, hr]
  · obtain ⟨b, hb, rfl⟩ := Plan.account_find.1 ha
    exact h.deep n b hb (hc.of_paths hrecord.map_path)

/-- A failed evaluation fails the plan that waits for it. -/
theorem evaluate_error {site : Site} {fresh : Bool} {next : Value → Plan α} {fault : Fault}
    (h : Accounted S traced (fun n => S.account n site) left stack w (.error fault) stack' w') :
    Accounted S traced (fun n => (Plan.evaluate site fresh next).account S (S.account n)) left stack
      w (.error fault : Except Fault α) stack' w' := by
  refine ⟨h.document, h.context, h.grows, nofun, fun n a ha hc => ?_⟩
  obtain ⟨u, hu, -⟩ := Plan.account_evaluate.1 ha
  rcases h.deep n u hu hc with ⟨v, hv⟩ | ⟨⟨limit, path, he⟩, hlt⟩
  · cases hv
  · cases he
    exact .inr ⟨⟨limit, path, rfl⟩, hlt⟩

theorem evaluate_ok {site : Site} {fresh : Bool} {next : Value → Plan α} {value : Value}
    (h : Accounted S traced (fun n => S.account n site) left stack w (.ok value) s v)
    (h' : Accounted S traced (fun n => (next value).account S (S.account n)) left s v r stack' w') :
    Accounted S traced (fun n => (Plan.evaluate site fresh next).account S (S.account n)) left stack
      w r stack' w' := by
  obtain ⟨m, u, reads, hu, rfl, hg, ht⟩ := h.ok value rfl
  refine ⟨h'.document.trans h.document, h'.context.trans h.context, h.grows.trans h'.grows,
    fun b hb => ?_, fun n a ha hc => ?_⟩
  · obtain ⟨n, a, reads', ha, hv, hg', ht'⟩ := h'.ok b hb
    have hle {k : Nat} (hk : k ≤ max m n) (site : Site) (a : Account Value) :
        S.account k site = some a → S.account (max m n) site = some a := S.account_le hk
    refine ⟨max m n, _, reads ++ reads', Plan.account_evaluate.2
      ⟨u, hle (Nat.le_max_left m n) _ _ hu, a,
        Plan.account_mono (hle (Nat.le_max_right m n)) ha, rfl⟩, hv, hg.trans hg', fun htr => ?_⟩
    obtain ⟨hr, hu, hk⟩ := ht htr
    obtain ⟨hr', hu', hk'⟩ := ht' htr
    refine ⟨fun slot => ?_, fun key hkey => ?_, fun key hkey => ?_⟩
    · simp only [Account.after, List.mem_append, hr, hr']
    · rcases List.mem_append.1 hkey with hkey | hkey
      · exact h'.grows.known key (hu key hkey)
      · exact hu' key hkey
    · simp only [Account.after, List.mem_append]
      rcases hk' key hkey with hkey | hkey
      · exact (hk key hkey).imp id .inl
      · exact .inr (.inr hkey)
  · obtain ⟨u', hu', b, hb, rfl⟩ := Plan.account_evaluate.1 ha
    obtain rfl := S.account_unique hu hu'
    exact h'.deep n b hb (hc.of_paths hg.map_path)

theorem call_error {name : String} {args : List Value} {next : Value → Plan α} {fault : Fault}
    (hr : S.call name args = .error fault) (stack : Stack) (w : World σ) (host : σ) :
    Accounted S traced (fun n => (Plan.call name args next).account S (S.account n)) left stack w
      (.error fault : Except Fault α) stack { w with host := host } := by
  refine ⟨rfl, rfl, .refl _, nofun, fun n a ha hc => ?_⟩
  obtain ⟨u, hu, -⟩ := Plan.account_call.1 ha
  rw [hr] at hu
  cases hu

theorem call_ok {name : String} {args : List Value} {next : Value → Plan α} {value : Value}
    (hr : S.call name args = .ok value) {host : σ}
    (h : Accounted S traced (fun n => (next value).account S (S.account n)) left stack
      { w with host := host } r stack' w') :
    Accounted S traced (fun n => (Plan.call name args next).account S (S.account n)) left stack w r
      stack' w' := by
  have hacc (n : Nat) (a : Account α) : (Plan.call name args next).account S (S.account n) =
      some a ↔ (next value).account S (S.account n) = some a := by
    rw [Plan.account_call, hr]
    simp
  refine ⟨h.document, h.context, h.grows, fun b hb => ?_,
    fun n a ha hc => h.deep n a ((hacc n a).1 ha) hc⟩
  obtain ⟨n, a, reads, ha, hrest⟩ := h.ok b hb
  exact ⟨n, a, reads, (hacc n a).2 ha, hrest⟩

/-- An expression nests one deeper than its template. -/
theorem deep_of_render (hS : S.Coherent) {site : Site} (hs : S.Locates site) {q : Except Fault Value}
    (h : Accounted S traced (fun n => (Plan.render site).account S (S.account n)) left
      (.enter site.path :: stack) w q stack' w') {n : Nat} {a : Account Value}
    (ha : S.account n site = some a) (hc : S.Clear n stack) :
    (∃ v, q = .ok v) ∨ IsTooDeep q ∧ left + 1 < n := by
  obtain ⟨k, hkn, ha, hk⟩ := S.account_least ha
  obtain ⟨b, hb, -⟩ := Setting.account_succ.1 ha
  rcases h.deep k b hb (hc.enter hS hs (Nat.le_of_lt hkn) hk) with hok | ⟨hd, hlt⟩
  · exact .inl hok
  · exact .inr ⟨hd, by omega⟩

end Accounted

/-- What a request has the steps of a plan answered with in a world. -/
def Request.setting {σ : Type} (request : Request σ)
    (f : String → List Value → Except String Value) (w : World σ) : Setting :=
  ⟨fun path => .ofLocated (locate w.document path (w.context.merge request.context)),
    request.outcome f⟩

namespace Request

variable {σ α : Type} {request : Request σ} {f : String → List Value → Except String Value}
  {S : Setting} {traced : Prop}

/-- Every evaluation of a located expression, nested `left` deep at most, is accounted for. -/
def Accounts (request : Request σ) (f : String → List Value → Except String Value) (S : Setting)
    (traced : Prop) (left : Nat) (evaluate : Evaluator σ) : Prop :=
  ∀ site fresh stack w r stack' w', request.setting f w = S → S.Locates site →
    w.cache.Faithful S traced → (evaluate site fresh).Runs stack w r stack' w' →
    Accounted S traced (fun n => S.account n site) left stack w r stack' w'

theorem follow_accounted (hS : S.Coherent) (hp : request.options.Pure f) {left : Nat}
    {evaluate : Evaluator σ} (hev : request.Accounts f S traced left evaluate) {p : Plan α}
    (hpe : p.Evaluates S S.Locates) {stack stack' : Stack} {w w' : World σ}
    {r : Except Fault α} (hw : request.setting f w = S) (hf : w.cache.Faithful S traced)
    (h : (request.follow evaluate p).Runs stack w r stack' w') :
    Accounted S traced (fun n => p.account S (S.account n)) left stack w r stack' w' := by
  induction p generalizing stack w with
  | done result =>
    simp only [follow, Task.runs_pure_iff] at h
    obtain ⟨rfl, rfl, rfl⟩ := h
    exact .done r stack' w'
  | find path next ih =>
    have h := runs_follow_find h
    have hfound : request.foundAt w path = S.find path := by rw [← hw]; rfl
    rw [hfound] at h
    exact .find (ih _ hpe hw hf h)
  | evaluate site fresh next ih =>
    rcases runs_follow_evaluate h with ⟨fault, rfl, hsite⟩ | ⟨value, s, v, hsite, h⟩
    · exact .evaluate_error (hev site fresh stack w _ _ _ hw hpe.1 hf hsite)
    · have hacc := hev site fresh stack w _ s v hw hpe.1 hf hsite
      have hv : request.setting f v = S := by
        rw [← hw, setting, setting, hacc.document, hacc.context]
      exact .evaluate_ok hacc (ih value (hpe.2 _) hv (hf.grows hS hacc.grows) h)
  | call name args next ih =>
    have hout : request.outcome f name args = S.call name args := by rw [← hw]; rfl
    rcases runs_follow_call h with ⟨fault, rfl, hcall⟩ | ⟨value, s, v, hcall, h⟩
    · obtain ⟨hr, rfl, host, rfl⟩ := runs_call hp hcall
      exact .call_error (hr.trans hout).symm stack' w host
    · obtain ⟨hr, rfl, host, rfl⟩ := runs_call hp hcall
      exact .call_ok (hr.trans hout).symm
        (ih value (hpe value) (w := { w with host := host }) hw hf h)

theorem compute_accounted (hS : S.Coherent) (hp : request.options.Pure f) {left : Nat}
    {evaluate : Evaluator σ} (hev : request.Accounts f S traced left evaluate) {site : Site}
    (hs : S.Locates site) {stack stack' : Stack} {w w' : World σ} {r : Except Fault Value}
    (hw : request.setting f w = S) (hf : w.cache.Faithful S traced)
    (h : (request.compute evaluate site).Runs stack w r stack' w') :
    Accounted S traced (fun n => S.account n site) (left + 1) stack w r stack' w' := by
  obtain ⟨s, v, hrun, rfl, rfl⟩ := runs_compute h
  have hf' : w.cache.begin.Faithful S traced := ⟨hf.timely.begin, hf.sound⟩
  have hacc := follow_accounted hS hp hev (Plan.evaluates_render site)
    (w := { w with cache := w.cache.begin }) hw hf' hrun
  have hgrows : w.cache.Grows S traced (v.cache.finish w.cache.epoch) := hacc.grows.of_begin
  have hdeep (n : Nat) (a : Account Value) (ha : S.account n site = some a)
      (hc : S.Clear n stack) : (∃ v, r = .ok v) ∨ IsTooDeep r ∧ left + 1 < n :=
    hacc.deep_of_render hS hs ha hc
  cases r with
  | error fault => exact ⟨hacc.document, hacc.context, hgrows, nofun, hdeep⟩
  | ok value =>
    obtain ⟨n, b, reads, hb, rfl, ⟨frame, rfl, -, hkeep, hreads⟩, ht⟩ := hacc.ok value rfl
    have hkeep : frame.keepable = true := hkeep
    let entry : CacheEntry := ⟨b.result, w.cache.epoch, frame.reads⟩
    have hstore : store site w.cache.epoch (.ok b.result) (frame :: stack)
        (v.cache.finish w.cache.epoch) = (v.cache.finish w.cache.epoch).insert (keyOf site) entry :=
      if_pos hkeep
    have ha : S.account (n + 1) site = some (b.after [site.path.logical] [keyOf site]) :=
      Setting.account_succ.2 ⟨b, hb, rfl⟩
    have htimely := hgrows.timely hf.timely
    have he : entry.epoch = (v.cache.finish w.cache.epoch).epoch := hgrows.epoch.symm
    have hinsert {key : CacheKey} := Cache.known_insert htimely (keyOf site) he (k := key)
    have hslots (htr : traced) (slot : Path) : slot ∈ frame.reads ↔
        slot ∈ (b.after [site.path.logical] [keyOf site]).reads := by
      rw [hreads, (ht htr).1, Account.after, List.mem_append]
      exact Iff.rfl
    have hknown (htr : traced) (key : CacheKey)
        (hkey : key ∈ (b.after [site.path.logical] [keyOf site]).uses) :
        ((v.cache.finish w.cache.epoch).insert (keyOf site) entry).Known key := by
      rcases List.mem_append.1 hkey with hkey | hkey
      · exact hinsert.2 (.inl (List.mem_singleton.1 hkey))
      · exact hinsert.2 (.inr ((ht htr).2.1 key hkey))
    refine ⟨hacc.document, hacc.context, ?_, ?_, hdeep⟩
    · rw [hstore]
      exact hgrows.trans (.insert htimely hs ha rfl he fun htr => ⟨hslots htr, hknown htr⟩)
    · rintro _ ⟨⟩
      refine ⟨n + 1, _, frame.reads, ha, rfl, Stack.grown_pop hkeep stack,
        fun htr => ⟨hslots htr, ?_, ?_⟩⟩
      · rw [hstore]
        exact hknown htr
      · intro key hkey
        rw [hstore] at hkey
        rcases hinsert.1 hkey with he | hkey
        · exact .inr (List.mem_append_left _ (List.mem_singleton.2 he))
        · exact ((ht htr).2.2 key hkey).imp id (List.mem_append_right _)

theorem evaluated_accounted (hS : S.Coherent) (hp : request.options.Pure f) {left : Nat}
    (hev : ∀ left', left = left' + 1 → request.Accounts f S traced left' (request.evaluate left')) :
    request.Accounts f S traced left (request.evaluate left) := by
  intro site fresh stack w r stack' w' hw hs hf h
  cases runs_evaluate hp.onError h with
  | @kept entry hl _ =>
    obtain ⟨n, a, ha, hv, hb⟩ := hf.sound _ entry hl site hs rfl
    refine ⟨rfl, rfl, .refl _, ?_, fun _ _ _ _ => .inl ⟨_, rfl⟩⟩
    rintro _ ⟨⟩
    exact ⟨n, a, entry.reads, ha, hv, Stack.grown_record stack _,
      fun htr => ⟨(hb htr).1, (hb htr).2, fun _ => .inl⟩⟩
  | cycle _ hwait =>
    refine ⟨rfl, rfl, .refl _, nofun, fun n a ha hc => ?_⟩
    obtain ⟨frame, hframe, hpath⟩ := List.any_eq_true.1 hwait
    rw [hc frame hframe site hs (eq_of_beq hpath).symm] at ha
    cases ha
  | tooDeep _ _ hleft =>
    refine ⟨rfl, rfl, .refl _, nofun, fun n a ha hc => .inr ⟨⟨_, _, rfl⟩, ?_⟩⟩
    cases n with
    | zero => cases ha
    | succ n => omega
  | @computed _ _ left' hleft r _ _ run =>
    subst hleft
    have hacc := compute_accounted hS hp (hev left' rfl) hs hw hf run
    refine ⟨hacc.document, hacc.context, hacc.grows, fun v hv => ?_, fun n a ha hc => ?_⟩
    · cases r with
      | ok _ => exact hacc.ok v hv
      | error fault => cases hv
    · rcases hacc.deep n a ha hc with ⟨v, rfl⟩ | ⟨⟨limit, path, rfl⟩, hlt⟩
      · exact .inl ⟨v, rfl⟩
      · exact .inr ⟨⟨limit, path, rfl⟩, hlt⟩

/-- Every evaluation of a located expression is accounted for. -/
theorem evaluate_accounted (hS : S.Coherent) (hp : request.options.Pure f) (left : Nat) :
    request.Accounts f S traced left (request.evaluate left) := by
  induction left using of_remaining with
  | step left ih => exact evaluated_accounted hS hp ih

end Request

end LiveDoc

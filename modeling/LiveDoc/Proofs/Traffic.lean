import LiveDoc.Proofs.Logbook
import LiveDoc.Proofs.Sharing

/-! # Traffic on a tree

Reads that are begun, go on and end in any order, between writes, changes of the context and cleared
caches. Each read keeps the place in which it was begun.
-/

namespace LiveDoc

variable {σ : Type}

/-- What may happen to a tree. -/
inductive Act (σ : Type) where
  | start (base : Path) (text : String) (asked : ReadOptions)
  /-- Go on with the read at a place as far as possible. -/
  | poll (place : Nat)
  | set (base : Path) (text : String) (value : Value)
  | delete (base : Path) (text : String)
  | clear (base : Path) (text : String)
  | clearCache
  | setContext (context : Context)
  /-- Whatever resolvers look at comes to another state. -/
  | host (host : σ)

/-- A tree with all reads that were begun on it, each with what was asked. -/
structure Traffic (σ : Type) where
  tree : Tree σ
  reads : List (ReadOptions × Reading σ)

namespace Act

/-- Something is written or removed, the cache is cleared, or the context is replaced. -/
def Changes (t : Tree σ) : Act σ → Prop
  | .start _ _ _ | .poll _ | .host _ => False
  | .set base text value => (t.set base text value).2 = .ok ()
  | .delete base text => (t.delete base text).2 = .ok true
  | .clear base text => (t.clear base text).2 = .ok ()
  | .clearCache | .setContext _ => True

end Act

namespace Traffic

/-- A tree on which no read has begun. -/
def idle (t : Tree σ) : Traffic σ :=
  ⟨t, []⟩

def act (s : Traffic σ) : Act σ → Traffic σ
  | .start base text asked =>
    let (t, reading) := s.tree.start base text asked
    ⟨t, s.reads ++ [(asked, reading)]⟩
  | .poll place =>
    match s.reads[place]? with
    | none => s
    | some (asked, reading) =>
      let (t, reading) := s.tree.poll reading
      ⟨t, s.reads.set place (asked, reading)⟩
  | .set base text value => { s with tree := (s.tree.set base text value).1 }
  | .delete base text => { s with tree := (s.tree.delete base text).1 }
  | .clear base text => { s with tree := (s.tree.clear base text).1 }
  | .clearCache => { s with tree := s.tree.clearCache }
  | .setContext context => { s with tree := s.tree.setContext context }
  | .host host => { s with tree := { s.tree with world := { s.tree.world with host := host } } }

def run (s : Traffic σ) (acts : List (Act σ)) : Traffic σ :=
  acts.foldl act s

/-- What the read at a place ended with, if it has ended. -/
def result? (s : Traffic σ) (place : Nat) : Option ReadResult :=
  (s.reads[place]?).bind fun e => s.tree.result? e.2

/-- A read is under way that may share its evaluation. -/
def Pending (s : Traffic σ) : Prop :=
  ∃ asked reading, (asked, reading) ∈ s.reads ∧ asked.fresh = false ∧ s.tree.result? reading = none

/-- None of the acts changes what reads look at. -/
def Quiet (s : Traffic σ) : List (Act σ) → Prop
  | [] => True
  | a :: rest => ¬ a.Changes s.tree ∧ (s.act a).Quiet rest

variable {s : Traffic σ} {a : Act σ} {acts more : List (Act σ)}

theorem run_cons : s.run (a :: acts) = (s.act a).run acts :=
  rfl

theorem run_append : s.run (acts ++ more) = (s.run acts).run more := by
  rw [run, run, run, List.foldl_append]

end Traffic

/-! ## What acts do to a tree -/

/-- What an operation that succeeded at a path does to the cache. -/
def opsAt {ε β : Type} (path : Path) (done : β → Bool) : Except ε β → List CacheOp
  | .ok r => if done r then [.invalidate path] else []
  | .error _ => []

/-- What an act other than a read does to the cache. -/
def Act.ops (t : Tree σ) : Act σ → List CacheOp
  | .start _ _ _ | .poll _ | .host _ => []
  | .set base text value =>
    match base.resolve text with
    | .ok path => opsAt path (fun _ => true) (t.setAt path value).2
    | .error _ => []
  | .delete base text =>
    match base.resolve text with
    | .ok path => opsAt path id (t.deleteAt path).2
    | .error _ => []
  | .clear base text =>
    match base.resolve text with
    | .ok path => opsAt path (fun _ => true) (t.clearAt path).2
    | .error _ => []
  | .clearCache | .setContext _ => [.clear]

theorem opsAt_ne_nil_iff {ε β : Type} {path : Path} {done : β → Bool} {r : Except ε β} :
    opsAt path done r ≠ [] ↔ ∃ b, r = .ok b ∧ done b = true := by
  cases r <;> simp [opsAt]

/-- An act changes something exactly if it writes to the cache or clears it. -/
theorem Act.changes_iff {t : Tree σ} {a : Act σ} : a.Changes t ↔ a.ops t ≠ [] := by
  cases a with
  | start | poll | host | clearCache | setContext => simp [Changes, ops]
  | set base text value =>
    simp only [Changes, ops, Tree.set]
    cases base.resolve text with
    | error e => simp
    | ok path =>
      refine Iff.trans ⟨fun h => ⟨(), h, rfl⟩, ?_⟩ opsAt_ne_nil_iff.symm
      rintro ⟨⟨⟩, h, -⟩
      exact h
  | delete base text =>
    simp only [Changes, ops, Tree.delete]
    cases base.resolve text with
    | error e => simp
    | ok path => simp [opsAt_ne_nil_iff]
  | clear base text =>
    simp only [Changes, ops, Tree.clear]
    cases base.resolve text with
    | error e => simp
    | ok path =>
      refine Iff.trans ⟨fun h => ⟨(), h, rfl⟩, ?_⟩ opsAt_ne_nil_iff.symm
      rintro ⟨⟨⟩, h, -⟩
      exact h

namespace Tree

/-- A tree after something other than a read: what is under way is left as it is, and writing to the
cache or clearing it counts. -/
structure Aside (ops : List CacheOp) (t t' : Tree σ) : Prop where
  options : t'.options = t.options
  shared : t'.shared = t.shared
  inflight : t'.inflight = t.inflight
  generation : t'.generation = t.generation + ops.length
  cache : t'.world.cache = ops.foldl CacheOp.apply t.world.cache
  changes : ∀ op ∈ ops, op.evaluates = false

namespace Aside

variable {t t' : Tree σ} {ops : List CacheOp}

theorem generation_le (h : Aside ops t t') : t.generation ≤ t'.generation := by
  rw [h.generation]
  exact Nat.le_add_right _ _

theorem kept {w : World σ} (hc : w.cache = t.world.cache) : Aside [] t { t with world := w } :=
  ⟨rfl, rfl, rfl, rfl, hc, nofun⟩

theorem written (t : Tree σ) (document : Value) (path : Path) :
    Aside [.invalidate path] t (t.written document path) :=
  ⟨rfl, rfl, rfl, rfl, rfl, List.forall_mem_singleton.2 rfl⟩

theorem setAt (t : Tree σ) (path : Path) (value : Value) :
    Aside (opsAt path (fun _ => true) (t.setAt path value).2) t (t.setAt path value).1 := by
  unfold Tree.setAt
  rcases write t.world.document path value t.world.context with ⟨document, _ | ⟨⟨⟩⟩⟩
  · exact .kept rfl
  · exact .written t document path

theorem deleteAt (t : Tree σ) (path : Path) :
    Aside (opsAt path id (t.deleteAt path).2) t (t.deleteAt path).1 := by
  unfold Tree.deleteAt
  rcases remove t.world.document path with _ | _ | document
  · exact .kept rfl
  · exact .kept rfl
  · exact .written t document path

theorem clearAt (t : Tree σ) (path : Path) :
    Aside (opsAt path (fun _ => true) (t.clearAt path).2) t (t.clearAt path).1 := by
  unfold Tree.clearAt
  split
  · exact .written t _ path
  · exact .setAt t path _

end Aside

end Tree

namespace Traffic

/-- An act begins a read, goes on with one, or leaves all of them as they are. -/
theorem act_cases (s : Traffic σ) (a : Act σ) :
    (∃ base text asked, a = .start base text asked) ∨ (∃ place, a = .poll place) ∨
      (s.act a).reads = s.reads ∧ Tree.Aside (a.ops s.tree) s.tree (s.act a).tree := by
  cases a with
  | start base text asked => exact .inl ⟨base, text, asked, rfl⟩
  | poll place => exact .inr (.inl ⟨place, rfl⟩)
  | host host => exact .inr (.inr ⟨rfl, .kept rfl⟩)
  | clearCache | setContext =>
    exact .inr (.inr ⟨rfl, rfl, rfl, rfl, rfl, rfl, List.forall_mem_singleton.2 rfl⟩)
  | set base text value =>
    refine .inr (.inr ⟨rfl, ?_⟩)
    simp only [Act.ops, act, Tree.set]
    cases base.resolve text with
    | error e => exact .kept rfl
    | ok path => exact .setAt s.tree path value
  | delete base text =>
    refine .inr (.inr ⟨rfl, ?_⟩)
    simp only [Act.ops, act, Tree.delete]
    cases base.resolve text with
    | error e => exact .kept rfl
    | ok path => exact .deleteAt s.tree path
  | clear base text =>
    refine .inr (.inr ⟨rfl, ?_⟩)
    simp only [Act.ops, act, Tree.clear]
    cases base.resolve text with
    | error e => exact .kept rfl
    | ok path => exact .clearAt s.tree path

theorem precedes_act (s : Traffic σ) (a : Act σ) : s.tree.Precedes (s.act a).tree := by
  rcases s.act_cases a with ⟨base, text, asked, rfl⟩ | ⟨place, rfl⟩ | ⟨-, h⟩
  · exact s.tree.precedes_start base text asked
  · simp only [act]
    split
    · exact .refl _
    · exact s.tree.precedes_poll _
  · exact .of_eq h.shared h.inflight h.generation_le

theorem precedes_run (s : Traffic σ) (acts : List (Act σ)) :
    s.tree.Precedes (s.run acts).tree := by
  induction acts generalizing s with
  | nil => exact .refl _
  | cons a rest ih => exact (s.precedes_act a).trans (ih (s.act a))

/-- Exactly the changes raise the generation. -/
theorem generation_act (s : Traffic σ) (a : Act σ) :
    (s.act a).tree.generation = s.tree.generation ↔ ¬ a.Changes s.tree := by
  rcases s.act_cases a with ⟨base, text, asked, rfl⟩ | ⟨place, rfl⟩ | ⟨-, h⟩
  · exact iff_of_true (s.tree.generation_start base text asked) id
  · refine iff_of_true ?_ id
    simp only [act]
    split
    · rfl
    · exact s.tree.generation_poll _
  · rw [h.generation, Act.changes_iff, not_not, Nat.add_eq_left, List.length_eq_zero_iff]

/-- The generation tells whether something changed in between. -/
theorem generation_run (s : Traffic σ) (acts : List (Act σ)) :
    (s.run acts).tree.generation = s.tree.generation ↔ s.Quiet acts := by
  induction acts generalizing s with
  | nil => exact iff_of_true rfl trivial
  | cons a rest ih =>
    have hact := (s.precedes_act a).generation_le
    have hrest := ((s.act a).precedes_run rest).generation_le
    rw [run_cons, Quiet, ← s.generation_act a, ← ih (s.act a)]
    omega

/-! ## Reads in their places -/

/-- A read stays in its place, with what was asked, on its own or with the evaluation that it
joined. -/
theorem reads_act {s : Traffic σ} {a : Act σ} {place : Nat} (h : place < s.reads.length)
    {asked : ReadOptions} {n : Nat} : (s.act a).reads[place]? = some (asked, .joined n) ↔
      s.reads[place]? = some (asked, .joined n) := by
  rcases s.act_cases a with ⟨base, text, asked, rfl⟩ | ⟨polled, rfl⟩ | ⟨hr, -⟩
  · simp only [act]
    rw [List.getElem?_append_left h]
  · simp only [act]
    split
    · rfl
    · next asked' reading hpolled =>
      by_cases hp : polled = place
      · subst hp
        rw [List.getElem?_set_self h, hpolled]
        cases reading <;> simp [Tree.poll]
      · rw [List.getElem?_set_ne hp]
  · rw [hr]

/-- Only what begins a read adds one. -/
theorem length_reads_act (s : Traffic σ) (a : Act σ) :
    (s.act a).reads.length = s.reads.length ∨ (∃ base text asked, a = .start base text asked) ∧
      (s.act a).reads.length = s.reads.length + 1 := by
  rcases s.act_cases a with ⟨base, text, asked, rfl⟩ | ⟨place, rfl⟩ | ⟨hr, -⟩
  · exact .inr ⟨⟨base, text, asked, rfl⟩, by simp [act]⟩
  · left
    simp only [act]
    split
    · rfl
    · rw [List.length_set]
  · exact .inl (congrArg List.length hr)

theorem length_reads_act_le (s : Traffic σ) (a : Act σ) :
    s.reads.length ≤ (s.act a).reads.length := by
  rcases s.length_reads_act a with h | ⟨-, h⟩ <;> omega

theorem reads_run {s : Traffic σ} {place : Nat} (h : place < s.reads.length) {asked : ReadOptions}
    {n : Nat} (acts : List (Act σ)) : (s.run acts).reads[place]? = some (asked, .joined n) ↔
      s.reads[place]? = some (asked, .joined n) := by
  induction acts generalizing s with
  | nil => rfl
  | cons a rest ih => rw [run_cons, ih (Nat.lt_of_lt_of_le h (s.length_reads_act_le a)), reads_act h]

theorem length_reads_run (s : Traffic σ) (acts : List (Act σ)) :
    s.reads.length ≤ (s.run acts).reads.length := by
  induction acts generalizing s with
  | nil => exact Nat.le_refl _
  | cons a rest ih => exact Nat.le_trans (s.length_reads_act_le a) (ih (s.act a))

/-- Each read was begun at some moment. -/
theorem exists_start {s : Traffic σ} {acts : List (Act σ)} {place : Nat} (h : s.reads.length ≤ place)
    (hp : place < (s.run acts).reads.length) : ∃ front base text asked back,
      acts = front ++ .start base text asked :: back ∧ (s.run front).reads.length = place := by
  induction acts generalizing s with
  | nil => exact absurd hp (Nat.not_lt.2 h)
  | cons a rest ih =>
    rcases Nat.lt_or_ge place (s.act a).reads.length with hlt | hge
    · rcases s.length_reads_act a with hl | ⟨⟨base, text, asked, rfl⟩, hl⟩
      · omega
      · exact ⟨[], base, text, asked, rest, rfl, by rw [run, List.foldl_nil]; omega⟩
    · obtain ⟨front, base, text, asked, back, rfl, hfront⟩ := ih hge hp
      exact ⟨a :: front, base, text, asked, back, rfl, hfront⟩

/-- The tree is orderly, every shared evaluation was begun for a read, and reads that may share and
are under way have joined one. -/
structure Orderly (s : Traffic σ) : Prop where
  tree : s.tree.Orderly
  begun : ∀ n < s.tree.shared.length, ∃ asked, (asked, .joined n) ∈ s.reads
  joined : ∀ asked n, (asked, .joined n) ∈ s.reads →
    asked.fresh = false ∧ n < s.tree.shared.length
  alone : ∀ asked p, (asked, .alone p) ∈ s.reads → asked.fresh = false → p.result? ≠ none

namespace Orderly

variable {s : Traffic σ}

theorem idle {t : Tree σ} (h : t.Orderly) (hs : t.shared = []) : (Traffic.idle t).Orderly where
  tree := h
  begun n hn := by
    rw [Traffic.idle, hs] at hn
    cases hn
  joined _ _ hm := by cases hm
  alone _ _ hm := by cases hm

theorem aside {ops : List CacheOp} {t : Tree σ} (h : s.Orderly) (hb : Tree.Aside ops s.tree t) :
    Orderly ⟨t, s.reads⟩ where
  tree := h.tree.of_eq hb.shared hb.inflight hb.generation_le
  begun n hn := h.begun n (by rwa [← hb.shared])
  joined asked n hm := by
    simp only [hb.shared]
    exact h.joined asked n hm
  alone := h.alone

/-- A read has begun on its own; it waits only if it is fresh. -/
theorem alone_started (h : s.Orderly) (w : World σ) {asked : ReadOptions}
    {p : Progress σ ReadResult} (hp : asked.fresh = false → p.result? ≠ none) :
    Orderly ⟨{ s.tree with world := w }, s.reads ++ [(asked, .alone p)]⟩ where
  tree := h.tree.of_eq rfl rfl (Nat.le_refl _)
  begun n hn := by
    obtain ⟨asked', hm⟩ := h.begun n hn
    exact ⟨asked', List.mem_append_left _ hm⟩
  joined asked' n hm := by
    rcases List.mem_append.1 hm with hm | hm
    · exact h.joined asked' n hm
    · cases List.mem_singleton.1 hm
  alone asked' q hm hf := by
    rcases List.mem_append.1 hm with hm | hm
    · exact h.alone asked' q hm hf
    · cases List.mem_singleton.1 hm
      exact hp hf

/-- A read has joined an evaluation, which may have been begun for it. -/
theorem join (h : s.Orderly) {t : Tree σ} (ht : t.Orderly) {asked : ReadOptions} {n : Nat}
    (hf : asked.fresh = false) (hp : s.tree.Precedes t) (hn : n < t.shared.length)
    (hnew : ∀ m < t.shared.length, m = n ∨ m < s.tree.shared.length) :
    Orderly ⟨t, s.reads ++ [(asked, .joined n)]⟩ where
  tree := ht
  begun m hm := by
    rcases hnew m hm with rfl | hm
    · exact ⟨asked, List.mem_append_right _ (List.mem_singleton_self _)⟩
    · obtain ⟨asked', hm⟩ := h.begun m hm
      exact ⟨asked', List.mem_append_left _ hm⟩
  joined asked' m hm := by
    rcases List.mem_append.1 hm with hm | hm
    · exact (h.joined asked' m hm).imp_right fun hlt => Nat.lt_of_lt_of_le hlt hp.length_le
    · cases List.mem_singleton.1 hm
      exact ⟨hf, hn⟩
  alone asked' p hm hf' := by
    rcases List.mem_append.1 hm with hm | hm
    · exact h.alone asked' p hm hf'
    · cases List.mem_singleton.1 hm

theorem start (h : s.Orderly) (base : Path) (text : String) (asked : ReadOptions) :
    (s.act (.start base text asked)).Orderly := by
  have htree := h.tree.start base text asked
  have hp := s.tree.precedes_start base text asked
  simp only [Traffic.act]
  rcases s.tree.start_cases base text asked with
    ⟨e, -, hs⟩ | ⟨path, -, ⟨hf, step, -, hs⟩ | ⟨hf, ⟨n, hl, hs⟩ | ⟨-, step, -, hs⟩⟩⟩ <;>
    rw [hs] at htree hp ⊢
  · exact h.alone_started s.tree.world fun _ => nofun
  · refine h.alone_started step.world fun hfresh => ?_
    rw [hf] at hfresh
    cases hfresh
  · have hn := (h.tree.unended n).1 (List.mem_map_of_mem (Assoc.mem_of_lookup hl))
    refine h.join htree hf hp (Nat.lt_of_lt_of_le hn.1 hp.length_le) fun m hm => .inr ?_
    rwa [s.tree.length_pollShared] at hm
  · have hlength : (s.tree.opening (s.tree.readKey path asked) step).shared.length =
        s.tree.shared.length + 1 := Tree.length_opening
    refine h.join htree hf hp (by rw [Tree.length_keepShared, hlength]; omega) fun m hm => ?_
    rw [Tree.length_keepShared, hlength] at hm
    omega

theorem poll (h : s.Orderly) (place : Nat) : (s.act (.poll place)).Orderly := by
  simp only [Traffic.act]
  split
  · exact h
  · next asked reading hr =>
    have htree := h.tree.poll reading
    have hread : (asked, reading) ∈ s.reads := List.mem_of_getElem? hr
    cases reading with
    | joined n =>
      have hset : s.reads.set place (asked, .joined n) = s.reads := by
        obtain ⟨hlt, hget⟩ := List.getElem?_eq_some_iff.1 hr
        rw [← hget, List.set_getElem_self hlt]
      simp only [Tree.poll, hset] at htree ⊢
      refine ⟨htree, fun m hm => ?_, fun asked' m hm => ?_, h.alone⟩
      · rw [s.tree.length_pollShared] at hm
        exact h.begun m hm
      · simp only [s.tree.length_pollShared]
        exact h.joined asked' m hm
    | alone p =>
      refine ⟨htree, fun n hn => ?_, fun asked' n hm => ?_, fun asked' q hm hf => ?_⟩
      · obtain ⟨asked', hm⟩ := h.begun n hn
        obtain ⟨i, hi⟩ := List.mem_iff_getElem?.1 hm
        have hne : place ≠ i := by
          rintro rfl
          rw [hr] at hi
          cases hi
        exact ⟨asked', List.mem_of_getElem? ((List.getElem?_set_ne hne).trans hi)⟩
      · rcases List.mem_or_eq_of_mem_set hm with hm | hm
        · exact h.joined asked' n hm
        · cases hm
      · rcases List.mem_or_eq_of_mem_set hm with hm | hm
        · exact h.alone asked' q hm hf
        · cases hm
          have hended := h.alone asked p hread hf
          cases p with
          | finished result => exact hended
          | waiting call next => exact absurd rfl hended

theorem act (h : s.Orderly) (a : Act σ) : (s.act a).Orderly := by
  rcases s.act_cases a with ⟨base, text, asked, rfl⟩ | ⟨place, rfl⟩ | ⟨hr, ha⟩
  · exact h.start base text asked
  · exact h.poll place
  · have hs : s.act a = ⟨(s.act a).tree, s.reads⟩ := by rw [← hr]
    rw [hs]
    exact h.aside ha

theorem run (h : s.Orderly) (acts : List (Act σ)) : (s.run acts).Orderly := by
  induction acts generalizing s with
  | nil => exact h
  | cons a rest ih => exact ih (h.act a)

end Orderly

end Traffic

end LiveDoc

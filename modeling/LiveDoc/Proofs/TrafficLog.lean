import LiveDoc.Proofs.Logbook
import LiveDoc.Proofs.Traffic
import Mathlib.Data.List.Perm.Basic

/-! # Traffic as a log

The cache of a tree is at every moment that of a legal log, in which the writes and clearings are
those of the traffic so far and the evaluations that run are those that waiting reads have left
open.
-/

namespace LiveDoc

variable {σ α : Type}

/-- What is left of a computation goes on by a log and ends the evaluations that it has left
open. -/
def Progress.Logged (own : List Nat) : Progress σ α → Prop
  | .finished _ => own = []
  | .waiting _ next => ∀ answer v ops others, v.Logged ops (own ++ others) →
      (next answer v).Logged v ops others

namespace Progress

variable {w : World σ} {ops : List CacheOp} {own others : List Nat}

theorem Logged.poll {p : Progress σ α} (h : p.Logged own) (hw : w.Logged ops (own ++ others)) :
    (p.poll w).Logged w ops others := by
  cases p with
  | finished result =>
    have hown : own = [] := h
    subst hown
    exact Step.logged_done hw rfl rfl rfl
  | waiting call next => exact Step.logged_poll own h hw

/-- Where a step rests, it has left some evaluations open. -/
theorem logged_ofStep {s : Step σ α} (h : s.Logged w ops others) : ∃ ops' own,
    World.Reads ops ops' w s.world ∧ s.world.Logged ops' (own ++ others) ∧ (ofStep s).Logged own := by
  cases h with
  | done reads logged => exact ⟨_, [], reads, logged, rfl⟩
  | wait own reads logged rest => exact ⟨_, own, reads, logged, rest⟩

end Progress

/-- What is left of a read that is on its own; a shared evaluation is logged at its number. -/
def Reading.Logged (own : List Nat) : Reading σ → Prop
  | .alone p => p.Logged own
  | .joined _ => own = []

namespace World

variable {ops : List CacheOp} {running running' : List Nat} {w : World σ}

theorem Logged.perm (h : w.Logged ops running) (hp : running.Perm running') : w.Logged ops running' :=
  ⟨h.legal, h.cache_eq, h.running_perm.trans hp⟩

end World

/-- Computations with the epochs of the evaluations that each of them has left open. -/
def openEpochs {β : Type} (all : List (List Nat × β)) : List Nat :=
  all.flatMap Prod.fst

section Epochs

variable {β : Type} {all : List (List Nat × β)} {i : Nat}

theorem openEpochs_perm {e : List Nat × β} (h : all[i]? = some e) :
    (openEpochs all).Perm (e.1 ++ openEpochs (all.eraseIdx i)) := by
  obtain ⟨hi, rfl⟩ := List.getElem?_eq_some_iff.1 h
  exact (List.getElem_cons_eraseIdx_perm hi).symm.flatMap_right Prod.fst

theorem openEpochs_set (e : List Nat × β) (h : i < all.length) :
    (openEpochs (all.set i e)).Perm (e.1 ++ openEpochs (all.eraseIdx i)) := by
  have hp := openEpochs_perm (List.getElem?_set_self (a := e) h)
  rwa [List.eraseIdx_set_eq] at hp

theorem openEpochs_append (e : List Nat × β) :
    openEpochs (all ++ [e]) = openEpochs all ++ e.1 := by
  simp [openEpochs]

end Epochs

namespace Traffic

/-- The cache follows a log; the evaluations that run are those left open by shared evaluations and
by reads on their own. -/
structure RecordedWith (s : Traffic σ) (ops : List CacheOp)
    (shared : List (List Nat × Progress σ ReadResult))
    (reads : List (List Nat × ReadOptions × Reading σ)) : Prop where
  shared_eq : shared.map Prod.snd = s.tree.shared
  reads_eq : reads.map Prod.snd = s.reads
  shared_logged : ∀ e ∈ shared, e.2.Logged e.1
  reads_logged : ∀ e ∈ reads, e.2.2.Logged e.1
  world : s.tree.world.Logged ops (openEpochs shared ++ openEpochs reads)

def Recorded (s : Traffic σ) (ops : List CacheOp) : Prop :=
  ∃ shared reads, s.RecordedWith ops shared reads

namespace RecordedWith

variable {s : Traffic σ} {ops : List CacheOp} {shared : List (List Nat × Progress σ ReadResult)}
  {reads : List (List Nat × ReadOptions × Reading σ)}

/-- A shared evaluation goes on among all others. -/
theorem pollShared (h : s.RecordedWith ops shared reads) (n : Nat) :
    ∃ ops' shared', World.Reads ops ops' s.tree.world (s.tree.pollShared n).world ∧
      RecordedWith ⟨s.tree.pollShared n, s.reads⟩ ops' shared' reads := by
  unfold Tree.pollShared
  cases hp : s.tree.shared[n]? with
  | none => exact ⟨ops, shared, .of_eq rfl rfl, h⟩
  | some p =>
    rw [← h.shared_eq, List.getElem?_map] at hp
    obtain ⟨⟨own, p⟩, he, rfl⟩ := Option.map_eq_some_iff.1 hp
    have hn : n < shared.length := (List.getElem?_eq_some_iff.1 he).1
    have hw : s.tree.world.Logged ops
        (own ++ (openEpochs (shared.eraseIdx n) ++ openEpochs reads)) := by
      refine h.world.perm ?_
      rw [← List.append_assoc]
      exact (openEpochs_perm he).append_right _
    obtain ⟨ops', own', hreads, hworld, hlogged⟩ :=
      Progress.logged_ofStep ((h.shared_logged _ (List.mem_of_getElem? he)).poll hw)
    obtain ⟨-, hkeep, hset⟩ := s.tree.keepShared_eq n (p.poll s.tree.world)
    refine ⟨ops', shared.set n (own', .ofStep (p.poll s.tree.world)), hkeep ▸ hreads, ?_, h.reads_eq,
      fun e he => ?_, h.reads_logged, ?_⟩
    · rw [hset, List.map_set, h.shared_eq]
    · rcases List.mem_or_eq_of_mem_set he with he | rfl
      · exact h.shared_logged e he
      · exact hlogged
    · rw [hkeep]
      refine hworld.perm ?_
      rw [← List.append_assoc]
      exact (openEpochs_set (own', Progress.ofStep (p.poll s.tree.world)) hn).symm.append_right _

/-- A read has begun, with or without a new shared evaluation. -/
theorem begun (h : s.RecordedWith ops shared reads) (asked : ReadOptions) {reading : Reading σ}
    {own : List Nat} (hr : reading.Logged own) {t : Tree σ} {ops' : List CacheOp}
    {shared' : List (List Nat × Progress σ ReadResult)} (hs : shared'.map Prod.snd = t.shared)
    (hl : ∀ e ∈ shared', e.2.Logged e.1)
    (hw : t.world.Logged ops' (own ++ (openEpochs shared' ++ openEpochs reads))) :
    RecordedWith ⟨t, s.reads ++ [(asked, reading)]⟩ ops' shared'
      (reads ++ [(own, asked, reading)]) where
  shared_eq := hs
  reads_eq := by rw [List.map_append, h.reads_eq]; rfl
  shared_logged := hl
  reads_logged e he := by
    rcases List.mem_append.1 he with he | he
    · exact h.reads_logged e he
    · rw [List.mem_singleton.1 he]
      exact hr
  world := by
    refine hw.perm ?_
    rw [openEpochs_append, ← List.append_assoc (openEpochs shared')]
    exact List.perm_append_comm

theorem start (h : s.RecordedWith ops shared reads) (base : Path) (text : String)
    (asked : ReadOptions) : ∃ ops', (s.act (.start base text asked)).Recorded ops' ∧
      World.Reads ops ops' s.tree.world (s.act (.start base text asked)).tree.world := by
  have hjoined (n : Nat) : Reading.Logged [] (.joined n : Reading σ) := rfl
  simp only [Traffic.act]
  rcases s.tree.start_cases base text asked with
    ⟨e, -, hs⟩ | ⟨path, -, ⟨-, step, hstep, hs⟩ | ⟨-, ⟨n, -, hs⟩ | ⟨-, step, hstep, hs⟩⟩⟩ <;> rw [hs]
  · have hfailed : Reading.Logged [] (.alone (.finished (.error (.ofPathError e))) : Reading σ) := rfl
    exact ⟨ops, ⟨_, _, h.begun asked hfailed h.shared_eq h.shared_logged h.world⟩, .of_eq rfl rfl⟩
  · have hlogged := Request.logged_read (s.tree.request asked) path true h.world
    rw [← hstep] at hlogged
    obtain ⟨ops', own, hreads, hworld, hown⟩ := Progress.logged_ofStep hlogged
    have halone : Reading.Logged own (.alone (.ofStep step)) := hown
    exact ⟨ops', ⟨_, _, h.begun asked halone h.shared_eq h.shared_logged hworld⟩, hreads⟩
  · obtain ⟨ops', shared', hreads, hrec⟩ := h.pollShared n
    exact ⟨ops', ⟨_, _, hrec.begun asked (hjoined n) hrec.shared_eq hrec.shared_logged hrec.world⟩,
      hreads⟩
  · have hlogged := Request.logged_read (s.tree.request asked) path false h.world
    rw [← hstep] at hlogged
    obtain ⟨ops', own, hreads, hworld, hown⟩ := Progress.logged_ofStep hlogged
    obtain ⟨-, hkeep, -⟩ := (s.tree.opening (s.tree.readKey path asked) step).keepShared_eq
      s.tree.shared.length step
    have hshared : (shared ++ [(own, Progress.ofStep step)]).map Prod.snd =
        ((s.tree.opening (s.tree.readKey path asked) step).keepShared
          s.tree.shared.length step).shared := by
      rw [Tree.shared_opened, List.map_append, h.shared_eq]
      rfl
    have hall : ∀ e ∈ shared ++ [(own, Progress.ofStep step)], e.2.Logged e.1 :=
      List.forall_mem_append.2 ⟨h.shared_logged, List.forall_mem_singleton.2 hown⟩
    refine ⟨ops', ⟨_, _, h.begun asked (hjoined _) hshared hall ?_⟩, ?_⟩
    · rw [hkeep, openEpochs_append]
      refine hworld.perm ?_
      rw [List.nil_append, ← List.append_assoc own]
      exact List.perm_append_comm.append_right _
    · rw [hkeep]
      exact hreads

/-- A read goes on among all others. -/
theorem poll (h : s.RecordedWith ops shared reads) (place : Nat) :
    ∃ ops', (s.act (.poll place)).Recorded ops' ∧
      World.Reads ops ops' s.tree.world (s.act (.poll place)).tree.world := by
  simp only [Traffic.act]
  split
  · exact ⟨ops, ⟨_, _, h⟩, .of_eq rfl rfl⟩
  · next asked reading hr =>
    cases reading with
    | joined n =>
      have hset : s.reads.set place (asked, .joined n) = s.reads := by
        obtain ⟨hlt, hget⟩ := List.getElem?_eq_some_iff.1 hr
        rw [← hget, List.set_getElem_self hlt]
      obtain ⟨ops', shared', hreads, hrec⟩ := h.pollShared n
      simp only [Tree.poll, hset]
      exact ⟨ops', ⟨_, _, hrec⟩, hreads⟩
    | alone p =>
      rw [← h.reads_eq, List.getElem?_map] at hr
      obtain ⟨⟨own, asked', reading⟩, he, hpair⟩ := Option.map_eq_some_iff.1 hr
      cases hpair
      have hw : s.tree.world.Logged ops
          (own ++ (openEpochs (reads.eraseIdx place) ++ openEpochs shared)) := by
        refine h.world.perm (List.perm_append_comm.trans ?_)
        rw [← List.append_assoc]
        exact (openEpochs_perm he).append_right _
      have hlogged : Progress.Logged own p := h.reads_logged _ (List.mem_of_getElem? he)
      obtain ⟨ops', own', hreads, hworld, hown⟩ := Progress.logged_ofStep (hlogged.poll hw)
      refine ⟨ops', ⟨shared, reads.set place (own', asked, .alone (.ofStep (p.poll s.tree.world))),
        h.shared_eq, ?_, h.shared_logged, fun e he' => ?_, hworld.perm ?_⟩, hreads⟩
      · rw [List.map_set, h.reads_eq]
        rfl
      · rcases List.mem_or_eq_of_mem_set he' with he' | rfl
        · exact h.reads_logged e he'
        · exact hown
      · have hplace : place < reads.length := (List.getElem?_eq_some_iff.1 he).1
        rw [← List.append_assoc]
        have hset := openEpochs_set (own', asked, .alone (Progress.ofStep (p.poll s.tree.world))) hplace
        exact (hset.symm.append_right _).trans List.perm_append_comm

end RecordedWith

end Traffic

namespace Traffic

variable {s : Traffic σ} {ops : List CacheOp}

/-- What the acts other than reads do to the cache, in order. -/
def changes (s : Traffic σ) : List (Act σ) → List CacheOp
  | [] => []
  | a :: rest => a.ops s.tree ++ (s.act a).changes rest

/-- The operations of a log that write or clear. -/
def unread (ops : List CacheOp) : List CacheOp :=
  ops.filter (!·.evaluates)

theorem unread_eq_nil_iff : unread ops = [] ↔ ∀ op ∈ ops, op.evaluates := by
  simp [unread]

theorem unread_append (ops ops' : List CacheOp) : unread (ops ++ ops') = unread ops ++ unread ops' :=
  List.filter_append ops ops'

/-- Each act goes on with the log, by operations of evaluations or by its own. -/
theorem Recorded.act (h : s.Recorded ops) (a : Act σ) :
    ∃ more, (s.act a).Recorded (ops ++ more) ∧ unread more = a.ops s.tree := by
  obtain ⟨shared, reads, h⟩ := h
  have hread {ops' : List CacheOp} (hr : (s.act a).Recorded ops')
      (hreads : World.Reads ops ops' s.tree.world (s.act a).tree.world) (hops : a.ops s.tree = []) :
      ∃ more, (s.act a).Recorded (ops ++ more) ∧ unread more = a.ops s.tree := by
    obtain ⟨more, rfl, hm⟩ := hreads.evaluates
    exact ⟨more, hr, hops ▸ unread_eq_nil_iff.2 hm⟩
  rcases s.act_cases a with ⟨base, text, asked, rfl⟩ | ⟨place, rfl⟩ | ⟨hr, ha⟩
  · obtain ⟨ops', hr, hreads⟩ := h.start base text asked
    exact hread hr hreads rfl
  · obtain ⟨ops', hr, hreads⟩ := h.poll place
    exact hread hr hreads rfl
  · refine ⟨a.ops s.tree, ⟨shared, reads, h.shared_eq.trans ha.shared.symm, h.reads_eq.trans hr.symm,
      h.shared_logged, h.reads_logged, h.world.changes ha.changes ha.cache⟩, ?_⟩
    exact List.filter_eq_self.2 fun op hop => by rw [ha.changes op hop]; rfl

/-- The log of a run goes on by what the acts do to the cache, and by evaluations. -/
theorem recorded_run (h : s.Recorded ops) (acts : List (Act σ)) :
    ∃ more, (s.run acts).Recorded (ops ++ more) ∧ unread more = s.changes acts := by
  induction acts generalizing s ops with
  | nil => exact ⟨[], by rwa [List.append_nil], rfl⟩
  | cons a rest ih =>
    obtain ⟨more, hr, hm⟩ := h.act a
    obtain ⟨more', hr', hm'⟩ := ih hr
    refine ⟨more ++ more', ?_, ?_⟩
    · rwa [← List.append_assoc]
    · rw [unread_append, hm, hm']
      rfl

/-- Nothing changes exactly if the log goes on by evaluations alone. -/
theorem changes_eq_nil_iff {acts : List (Act σ)} : s.changes acts = [] ↔ s.Quiet acts := by
  induction acts generalizing s with
  | nil => exact iff_of_true rfl trivial
  | cons a rest ih => rw [changes, Quiet, List.append_eq_nil_iff, ih, Act.changes_iff, not_not]

theorem recorded_idle (document : Value) (options : Options σ) (host : σ) :
    (idle (Tree.ofDocument document options host)).Recorded [] :=
  ⟨[], [], rfl, rfl, List.forall_mem_nil _, List.forall_mem_nil _, .empty rfl⟩

end Traffic

end LiveDoc

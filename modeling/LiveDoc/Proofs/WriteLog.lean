import LiveDoc.Proofs.Stamps
import Mathlib.Data.List.Induction

/-! # The cache against a full log

A cache keeps the latest stamp of a slot only, and drops stamps that are too old to matter. In every
order of evaluations, writes and stored results it still answers as if each write had been logged at
its place.
-/

namespace LiveDoc

/-- What happens to a cache. -/
inductive CacheOp where
  | begin
  | finish (epoch : Nat)
  /-- An evaluation ends and its result is stored. -/
  | keep (key : CacheKey) (entry : CacheEntry)
  | invalidate (path : Path)
  | clear

namespace CacheOp

def apply (c : Cache) : CacheOp → Cache
  | .begin => c.begin
  | .finish epoch => c.finish epoch
  | .keep key entry => (c.finish entry.epoch).insert key entry
  | .invalidate path => c.invalidate path
  | .clear => c.clear

/-- The operation on a cache that never drops a stamp. -/
def applyUnpruned (c : Cache) : CacheOp → Cache
  | .begin => c.begin
  | .finish epoch => c.finish epoch
  | .keep key entry => (c.finish entry.epoch).insert key entry
  | .invalidate path => c.stamped path
  | .clear => { c with entries := [] }

/-- Whether the operation drops or replaces what is stored under a key. -/
def Drops (key : CacheKey) : CacheOp → Prop
  | .begin | .finish _ => False
  | .keep key' _ => key' = key
  | .invalidate path => key.path.logical = path.logical
  | .clear => True

def written? : CacheOp → Option Path
  | .invalidate path => some path
  | _ => none

end CacheOp

namespace Cache

def run (ops : List CacheOp) : Cache :=
  ops.foldl CacheOp.apply empty

def runUnpruned (ops : List CacheOp) : Cache :=
  ops.foldl CacheOp.applyUnpruned empty

/-- Only an evaluation that still runs stores a result. -/
def Legal (ops : List CacheOp) : Prop :=
  ∀ before key entry after, ops = before ++ .keep key entry :: after →
    entry.epoch ∈ (run before).running

/-- The entry is the last one stored under the key, and nothing has dropped it since. -/
def Stored (ops : List CacheOp) (key : CacheKey) (entry : CacheEntry) : Prop :=
  ∃ before after, ops = before ++ .keep key entry :: after ∧ ∀ op ∈ after, ¬ op.Drops key

def writesOf (ops : List CacheOp) : List Path :=
  ops.filterMap CacheOp.written?

/-- A cache agrees with a log of operations. Freshness is claimed of all results that are stored or
may still be. -/
structure Logs (ops : List CacheOp) (c : Cache) : Prop where
  timely : c.Timely
  epoch_eq : c.epoch = (writesOf ops).length
  running_begun : ∀ e ∈ c.running, ∃ before after,
    ops = before ++ .begin :: after ∧ (writesOf before).length = e
  stored_iff : ∀ key entry, c.entries.lookup key = some entry ↔ Stored ops key entry
  isFresh_iff : ∀ entry, c.Recalls entry.epoch → entry.epoch ≤ c.epoch →
    (c.isFresh entry ↔ ∀ path ∈ (writesOf ops).drop entry.epoch, ¬ Concerns path entry.reads)

theorem run_snoc (ops : List CacheOp) (op : CacheOp) : run (ops ++ [op]) = op.apply (run ops) := by
  simp [run]

theorem runUnpruned_snoc (ops : List CacheOp) (op : CacheOp) :
    runUnpruned (ops ++ [op]) = op.applyUnpruned (runUnpruned ops) := by
  simp [runUnpruned]

theorem writesOf_append (ops ops' : List CacheOp) :
    writesOf (ops ++ ops') = writesOf ops ++ writesOf ops' :=
  List.filterMap_append

theorem mem_writesOf {ops : List CacheOp} {path : Path} :
    path ∈ writesOf ops ↔ .invalidate path ∈ ops := by
  simp only [writesOf, List.mem_filterMap]
  constructor
  · rintro ⟨op, hop, hw⟩
    cases op <;> simp_all [CacheOp.written?]
  · intro h
    exact ⟨_, h, rfl⟩

theorem Legal.of_append {ops ops' : List CacheOp} (h : Legal (ops ++ ops')) : Legal ops :=
  fun before key entry after he =>
    h before key entry (after ++ ops') (by rw [he, List.append_assoc, List.cons_append])

/-- A place in a list and one more element is the new element or a place in the list. -/
theorem split_snoc {ops before after : List CacheOp} {op x : CacheOp}
    (h : ops ++ [op] = before ++ x :: after) :
    (op = x ∧ ops = before ∧ after = []) ∨
      ∃ after', after = after' ++ [op] ∧ ops = before ++ x :: after' := by
  rcases List.eq_nil_or_concat after with rfl | ⟨after', op', rfl⟩
  · obtain ⟨hops, hop⟩ := List.append_inj' h rfl
    exact .inl ⟨List.singleton_inj.1 hop, hops, rfl⟩
  · rw [List.concat_eq_append, ← List.cons_append, ← List.append_assoc] at h
    obtain ⟨hops, hop⟩ := List.append_inj' h rfl
    obtain rfl := List.singleton_inj.1 hop
    exact .inr ⟨after', List.concat_eq_append, hops⟩

theorem legal_nil : Legal [] := by
  intro before key entry after he
  simp at he

theorem Legal.snoc {ops : List CacheOp} {op : CacheOp} (h : Legal ops)
    (hop : ∀ key entry, op = .keep key entry → entry.epoch ∈ (run ops).running) :
    Legal (ops ++ [op]) := by
  intro before key entry after he
  rcases split_snoc he with ⟨ho, rfl, -⟩ | ⟨after', -, he⟩
  · exact hop key entry ho
  · exact h before key entry after' he

theorem stored_snoc {ops : List CacheOp} {op : CacheOp} {key : CacheKey} {entry : CacheEntry} :
    Stored (ops ++ [op]) key entry ↔
      op = .keep key entry ∨ Stored ops key entry ∧ ¬ op.Drops key := by
  constructor
  · rintro ⟨before, after, he, ha⟩
    rcases split_snoc he with ⟨rfl, -, -⟩ | ⟨after, rfl, rfl⟩
    · exact .inl rfl
    · exact .inr ⟨⟨before, after, rfl, fun op hop => ha op (List.mem_append_left _ hop)⟩,
        ha op (List.mem_append_right _ List.mem_cons_self)⟩
  · rintro (rfl | ⟨⟨before, after, rfl, ha⟩, hop⟩)
    · exact ⟨ops, [], rfl, by simp⟩
    · refine ⟨before, after ++ [op], by simp, fun op' h => ?_⟩
      rcases List.mem_append.1 h with h | h
      · exact ha op' h
      · rwa [List.mem_singleton.1 h]

namespace Logs

variable {ops : List CacheOp} {c : Cache}

theorem running_le (h : Logs ops c) {e : Nat} (he : e ∈ c.running) : e ≤ c.epoch := by
  obtain ⟨before, after, rfl, rfl⟩ := h.running_begun e he
  rw [h.epoch_eq, writesOf_append]
  simp

/-- Nothing has been written since an epoch that is not over. -/
theorem unconcerned_of_epoch (h : Logs ops c) {entry : CacheEntry} (he : c.epoch ≤ entry.epoch) :
    ∀ path ∈ (writesOf ops).drop entry.epoch, ¬ Concerns path entry.reads := by
  rw [List.drop_eq_nil_of_le (by rw [← h.epoch_eq]; exact he)]
  exact fun _ hp => absurd hp List.not_mem_nil

theorem begun_snoc {e : Nat} (op : CacheOp)
    (h : ∃ before after, ops = before ++ .begin :: after ∧ (writesOf before).length = e) :
    ∃ before after, ops ++ [op] = before ++ .begin :: after ∧ (writesOf before).length = e := by
  obtain ⟨before, after, rfl, rfl⟩ := h
  exact ⟨before, after ++ [op], by simp, rfl⟩

theorem empty : Logs [] Cache.empty where
  timely := timely_empty
  epoch_eq := rfl
  running_begun _ h := by simp [Cache.empty] at h
  stored_iff key entry := by
    constructor
    · intro h
      simp [Cache.empty] at h
    · rintro ⟨before, after, he, -⟩
      simp at he
  isFresh_iff entry h := by
    obtain ⟨e, he, -⟩ := h
    simp [Cache.empty] at he

/-- An operation that writes nothing changes what is stored and what runs, and no freshness. -/
theorem unwritten (h : Logs ops c) {op : CacheOp} (hop : op.written? = none)
    {entries : List (CacheKey × CacheEntry)} {running : List Nat}
    (hr : ∀ e ∈ running, e ∈ c.running ∨ op = .begin ∧ e = c.epoch)
    (he : ∀ pair ∈ entries, pair ∈ c.entries ∨ pair.2.epoch ∈ c.running)
    (hs : ∀ key entry, entries.lookup key = some entry ↔ Stored (ops ++ [op]) key entry) :
    Logs (ops ++ [op]) { c with entries := entries, running := running } := by
  have hw : writesOf (ops ++ [op]) = writesOf ops := by
    simp [writesOf, hop]
  refine ⟨⟨h.timely.written_keys, h.timely.touched_keys, h.timely.written_le, h.timely.touched_le,
    fun pair hp => ?_⟩, by rw [hw]; exact h.epoch_eq, fun e hm => ?_, hs,
    fun entry hrec hle => ?_⟩
  · rcases he pair hp with hm | hm
    · exact h.timely.entries_le _ hm
    · exact h.running_le hm
  · rcases hr e hm with hm | ⟨rfl, rfl⟩
    · exact begun_snoc op (h.running_begun e hm)
    · exact ⟨ops, [], rfl, h.epoch_eq.symm⟩
  · have hnow : c.epoch ≤ entry.epoch ∨ c.Recalls entry.epoch := by
      obtain ⟨e, hm, hee⟩ := hrec
      rcases List.mem_append.1 hm with hm | hm
      · obtain ⟨pair, hp, rfl⟩ := List.mem_map.1 hm
        rcases he pair hp with hp | hp
        · exact .inr ⟨_, List.mem_append_left _ (List.mem_map_of_mem hp), hee⟩
        · exact .inr ⟨_, List.mem_append_right _ hp, hee⟩
      · rcases hr e hm with hm | ⟨-, rfl⟩
        · exact .inr ⟨e, List.mem_append_right _ hm, hee⟩
        · exact .inl hee
    rw [hw]
    rcases hnow with hnow | hrec
    · exact iff_of_true (h.timely.isFresh_of_epoch hnow) (h.unconcerned_of_epoch hnow)
    · exact h.isFresh_iff entry hrec hle

theorem begin (h : Logs ops c) : Logs (ops ++ [.begin]) c.begin :=
  h.unwritten rfl (fun _ he => (List.mem_cons.1 he).symm.imp id fun he => ⟨rfl, he⟩)
    (fun _ hp => .inl hp) fun key entry => by
      rw [h.stored_iff, stored_snoc]
      simp [CacheOp.Drops]

theorem finish (h : Logs ops c) (epoch : Nat) : Logs (ops ++ [.finish epoch]) (c.finish epoch) :=
  h.unwritten rfl (fun _ he => .inl (List.mem_of_mem_erase he)) (fun _ hp => .inl hp)
    fun key entry => by
      rw [h.stored_iff, stored_snoc]
      simp [CacheOp.Drops]

theorem keep (h : Logs ops c) (key : CacheKey) {entry : CacheEntry} (he : entry.epoch ∈ c.running) :
    Logs (ops ++ [.keep key entry]) ((c.finish entry.epoch).insert key entry) := by
  refine h.unwritten rfl (fun _ he => .inl (List.mem_of_mem_erase he)) (fun pair hp => ?_)
    fun key' entry' => ?_
  · rcases Assoc.mem_of_mem_put hp with rfl | hp
    · exact .inr he
    · exact .inl hp
  · rw [stored_snoc, ← h.stored_iff, Assoc.lookup_put]
    by_cases hk : key' = key
    · simp [hk, CacheOp.Drops]
    · simp [hk, Ne.symm hk, CacheOp.Drops, Cache.finish]

theorem dropAll (h : Logs ops c) : Logs (ops ++ [.clear]) { c with entries := [] } :=
  h.unwritten rfl (fun _ he => .inl he) (fun _ hp => absurd hp List.not_mem_nil)
    fun key entry => by simp [stored_snoc, CacheOp.Drops]

theorem prune (h : Logs ops c) : Logs ops c.prune where
  timely := h.timely.prune
  epoch_eq := by rw [prune_epoch, h.epoch_eq]
  running_begun := by simpa only [prune_running] using h.running_begun
  stored_iff := by simpa only [prune_entries] using h.stored_iff
  isFresh_iff entry hr hle := by
    rw [recalls_prune] at hr
    rw [prune_epoch] at hle
    rw [h.timely.isFresh_prune hr, h.isFresh_iff entry hr hle]

theorem stamped (h : Logs ops c) (path : Path) :
    Logs (ops ++ [.invalidate path]) (c.stamped path) where
  timely := h.timely.stamped path
  epoch_eq := by simp [Cache.stamped, h.epoch_eq, writesOf, CacheOp.written?]
  running_begun e he := begun_snoc _ (h.running_begun e he)
  stored_iff key entry := by
    rw [stored_snoc, lookup_entries_stamped, ← h.stored_iff]
    simp only [reduceCtorEq, false_or, CacheOp.Drops]
    split <;> simp_all
  isFresh_iff entry hr hle := by
    have hw : writesOf (ops ++ [.invalidate path]) = writesOf ops ++ [path] := by
      simp [writesOf, CacheOp.written?]
    rcases Nat.lt_or_ge c.epoch entry.epoch with hlt | hle'
    · have he : entry.epoch = c.epoch + 1 := Nat.le_antisymm hle hlt
      refine iff_of_true ((h.timely.stamped path).isFresh_of_epoch (Nat.le_of_eq he.symm)) ?_
      rw [List.drop_eq_nil_of_le (by rw [hw, he, h.epoch_eq]; simp)]
      exact fun _ hp => absurd hp List.not_mem_nil
    · have hc : c.Recalls entry.epoch := recalls_of_stamped hr
      rw [isFresh_stamped hle', h.isFresh_iff entry hc hle', hw,
        List.drop_append_of_le_length (by rw [← h.epoch_eq]; exact hle')]
      simp only [List.mem_append, List.mem_singleton, or_imp, forall_and, forall_eq]

theorem invalidate (h : Logs ops c) (path : Path) :
    Logs (ops ++ [.invalidate path]) (c.invalidate path) :=
  (h.stamped path).prune

theorem clear (h : Logs ops c) : Logs (ops ++ [.clear]) c.clear :=
  h.dropAll.prune

/-- A cache that agrees with a log finds what was stored last, unless a later write concerns it. -/
theorem lookup_iff (h : Logs ops c) {key : CacheKey} {entry : CacheEntry} :
    c.lookup key = some entry ↔ Stored ops key entry ∧
      ∀ path ∈ (writesOf ops).drop entry.epoch, ¬ Concerns path entry.reads := by
  rw [lookup_eq_some_iff, h.stored_iff]
  refine and_congr_right fun hs => ?_
  have hl := (h.stored_iff key entry).2 hs
  exact h.isFresh_iff entry (recalls_of_lookup hl) (h.timely.entries_le _ (Assoc.mem_of_lookup hl))

end Logs

theorem Legal.logs {ops : List CacheOp} (h : Legal ops) : Logs ops (run ops) := by
  induction ops using List.reverseRecOn with
  | nil => exact .empty
  | append_singleton ops op ih =>
    have hl := ih h.of_append
    rw [run_snoc]
    cases op with
    | begin => exact hl.begin
    | finish epoch => exact hl.finish epoch
    | keep key entry => exact hl.keep key (h ops key entry [] rfl)
    | invalidate path => exact hl.invalidate path
    | clear => exact hl.clear

/-- Without dropping, the same evaluations run and the same log is agreed with. -/
theorem Legal.logs_unpruned {ops : List CacheOp} (h : Legal ops) :
    Logs ops (runUnpruned ops) ∧ (runUnpruned ops).running = (run ops).running := by
  induction ops using List.reverseRecOn with
  | nil => exact ⟨.empty, rfl⟩
  | append_singleton ops op ih =>
    obtain ⟨hl, hr⟩ := ih h.of_append
    have he : (runUnpruned ops).epoch = (run ops).epoch := by
      rw [hl.epoch_eq, h.of_append.logs.epoch_eq]
    rw [run_snoc, runUnpruned_snoc]
    cases op with
    | begin => exact ⟨hl.begin, by simp only [CacheOp.apply, CacheOp.applyUnpruned, begin, hr, he]⟩
    | finish epoch =>
      exact ⟨hl.finish epoch, by simp only [CacheOp.apply, CacheOp.applyUnpruned, finish, hr]⟩
    | keep key entry =>
      refine ⟨hl.keep key (hr ▸ h ops key entry [] rfl), ?_⟩
      simp only [CacheOp.apply, CacheOp.applyUnpruned, finish, insert, hr]
    | invalidate path =>
      exact ⟨hl.stamped path, by simp only [CacheOp.apply, invalidate_running]; exact hr⟩
    | clear => exact ⟨hl.dropAll, by simp only [CacheOp.apply, clear, prune_running]; exact hr⟩

/-- The entry that a run of legal operations finds, in terms of the operations alone. -/
theorem Legal.lookup_run_iff {ops : List CacheOp} (h : Legal ops) {key : CacheKey}
    {entry : CacheEntry} :
    (run ops).lookup key = some entry ↔ ∃ before between after,
      ops = before ++ .begin :: (between ++ .keep key entry :: after) ∧
        (run before).epoch = entry.epoch ∧ (∀ op ∈ after, ¬ op.Drops key) ∧
        ∀ path, .invalidate path ∈ between ++ after → ¬ Concerns path entry.reads := by
  have hwrites {before between after : List CacheOp} (hl : Logs before (run before))
      (he : (run before).epoch = entry.epoch) (path : Path) :
      path ∈ (writesOf (before ++ .begin :: (between ++ .keep key entry :: after))).drop entry.epoch ↔
        .invalidate path ∈ between ++ after := by
    rw [writesOf_append, List.drop_left' (by rw [← hl.epoch_eq, he]), mem_writesOf]
    simp
  rw [h.logs.lookup_iff]
  constructor
  · rintro ⟨⟨first, after, rfl, ha⟩, hc⟩
    have hfirst : Legal first := h.of_append
    obtain ⟨before, between, rfl, he⟩ :=
      hfirst.logs.running_begun entry.epoch (h first key entry after rfl)
    have hbefore : Logs before (run before) := hfirst.of_append.logs
    have he : (run before).epoch = entry.epoch := by rw [hbefore.epoch_eq, he]
    rw [List.append_assoc, List.cons_append] at hc ⊢
    exact ⟨before, between, after, rfl, he, ha,
      fun path hp => hc path ((hwrites hbefore he path).2 hp)⟩
  · rintro ⟨before, between, after, rfl, he, ha, hc⟩
    refine ⟨⟨before ++ .begin :: between, after, by simp, ha⟩, fun path hp => hc path ?_⟩
    exact (hwrites h.of_append.logs he path).1 hp

theorem Stored.of_append {ops more : List CacheOp} {key : CacheKey} {entry : CacheEntry}
    (hm : ∀ entry, .keep key entry ∉ more) (h : Stored (ops ++ more) key entry) :
    Stored ops key entry := by
  induction more using List.reverseRecOn with
  | nil => rwa [List.append_nil] at h
  | append_singleton more op ih =>
    rw [← List.append_assoc, stored_snoc] at h
    rcases h with rfl | ⟨h, -⟩
    · exact absurd (List.mem_append_right _ List.mem_cons_self) (hm entry)
    · exact ih (fun entry he => hm entry (List.mem_append_left _ he)) h

/-- What is stale or gone stays so until something is stored under its key again. -/
theorem Legal.lookup_append_eq_none {ops more : List CacheOp} (h : Legal (ops ++ more))
    {key : CacheKey} (hm : ∀ entry, .keep key entry ∉ more) (hn : (run ops).lookup key = none) :
    (run (ops ++ more)).lookup key = none := by
  refine Option.eq_none_iff_forall_ne_some.2 fun entry hl => ?_
  obtain ⟨hs, hc⟩ := h.logs.lookup_iff.1 hl
  have hlook : (run ops).lookup key = some entry := by
    refine h.of_append.logs.lookup_iff.2 ⟨hs.of_append hm, fun path hp => hc path ?_⟩
    rw [writesOf_append]
    exact (List.sublist_append_left _ _).drop _ |>.subset hp
  rw [hn] at hlook
  cases hlook

/-- The stamps and their dropping stand for a full log: look-up finds the last stored result unless a
later write concerns it, it finds what it would find with every stamp kept, and nothing stale comes
back. -/
theorem lookup_run_eq_log {ops : List CacheOp} (h : Legal ops) (key : CacheKey) :
    (∀ entry, (run ops).lookup key = some entry ↔ ∃ before between after,
      ops = before ++ .begin :: (between ++ .keep key entry :: after) ∧
        (run before).epoch = entry.epoch ∧ (∀ op ∈ after, ¬ op.Drops key) ∧
        ∀ path, .invalidate path ∈ between ++ after → ¬ Concerns path entry.reads) ∧
      (run ops).prune.lookup key = (run ops).lookup key ∧
      (runUnpruned ops).lookup key = (run ops).lookup key ∧
      ∀ more, Legal (ops ++ more) → (∀ entry, .keep key entry ∉ more) →
        (run ops).lookup key = none → (run (ops ++ more)).lookup key = none := by
  have hsame {c c' : Cache} (hl : Logs ops c) (hl' : Logs ops c') : c.lookup key = c'.lookup key :=
    Option.ext fun entry => by rw [hl.lookup_iff, hl'.lookup_iff]
  exact ⟨fun entry => h.lookup_run_iff, hsame h.logs.prune h.logs, hsame h.logs_unpruned.1 h.logs,
    fun more hmore => hmore.lookup_append_eq_none⟩

/-- A result stored after a write that came while it was evaluated, and does not concern it. -/
theorem lookup_late_store :
    let key : CacheKey := ⟨⟨[".greet"]⟩, ""⟩
    let entry : CacheEntry := ⟨.null, 0, [⟨["greet"]⟩, ⟨["name"]⟩]⟩
    let ops : List CacheOp := [.begin, .invalidate ⟨["age"]⟩, .keep key entry]
    Legal ops ∧ (run ops).lookup key = some entry := by
  intro key entry ops
  have hkeep : entry.epoch ∈ (run [.begin, .invalidate ⟨["age"]⟩]).running := by
    simp [run, CacheOp.apply, Cache.begin, empty, entry]
  have hbegin : Legal [.begin] := Legal.snoc legal_nil fun _ _ he => by cases he
  have hwrite : Legal [.begin, .invalidate ⟨["age"]⟩] := Legal.snoc hbegin fun _ _ he => by cases he
  have h : Legal ops := Legal.snoc hwrite fun _ _ he => by cases he; exact hkeep
  refine ⟨h, ((lookup_run_eq_log h key).1 entry).2
    ⟨[], [.invalidate ⟨["age"]⟩], [], rfl, rfl, by simp, fun path hp => ?_⟩⟩
  obtain rfl : path = ⟨["age"]⟩ := by simpa using hp
  rintro ⟨slot, hs, hr⟩
  have hage : (Path.mk ["age"]).logical = ⟨["age"]⟩ := by decide
  rw [hage] at hr
  rcases List.mem_cons.1 hs with rfl | hs
  · exact absurd hr (by simp [Path.Related])
  · obtain rfl := List.mem_singleton.1 hs
    exact absurd hr (by simp [Path.Related])

end Cache

end LiveDoc

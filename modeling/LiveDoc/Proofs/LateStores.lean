import LiveDoc.Proofs.Accounted
import LiveDoc.Proofs.TrafficLog
import LiveDoc.Workbench
import Mathlib

/-! # Late stores

Whatever is kept for an expression gives way to the result of the evaluation that ends last, also
where that one began earlier and is overtaken by a write in the meantime.
-/

namespace LiveDoc

namespace Cache

/-- After the evaluation of an entry had begun, something that it read was written. -/
def Overtaken (ops : List CacheOp) (entry : CacheEntry) : Prop :=
  ∃ before between path, ops = before ++ .begin :: between ∧ (run before).epoch = entry.epoch ∧
    .invalidate path ∈ between ∧ Concerns path entry.reads

variable {ops more : List CacheOp} {key : CacheKey} {entry : CacheEntry}

theorem writesOf_eq_nil (hm : ∀ op ∈ more, op.evaluates) : writesOf more = [] := by
  refine List.filterMap_eq_nil_iff.2 fun op hop => ?_
  have hop := hm op hop
  cases op <;> first | rfl | cases hop

theorem not_drops {op : CacheOp} (ho : op.evaluates) (hne : ∀ entry, op ≠ .keep key entry) :
    ¬ op.Drops key := by
  cases op with
  | keep key' entry => exact fun hk => hne entry (congrArg (CacheOp.keep · entry) hk)
  | begin | finish => exact id
  | invalidate | clear => cases ho

/-- The writes since an evaluation began are those after as many as its epoch tells. -/
theorem Logs.overtaken_iff {c : Cache} (h : Logs ops c) (hl : Legal ops)
    (hb : entry.epoch ∈ c.running) :
    Overtaken ops entry ↔ ∃ path ∈ (writesOf ops).drop entry.epoch, Concerns path entry.reads := by
  have hsince {before between : List CacheOp} (he : ops = before ++ .begin :: between)
      (hlen : (writesOf before).length = entry.epoch) (path : Path) :
      path ∈ (writesOf ops).drop entry.epoch ↔ .invalidate path ∈ between := by
    rw [he, writesOf_append, List.drop_left' hlen, mem_writesOf, List.mem_cons]
    exact or_iff_right CacheOp.noConfusion
  constructor
  · rintro ⟨before, between, path, he, hepoch, hw, hc⟩
    have hbefore : Legal before := (he ▸ hl).of_append
    rw [hbefore.logs.epoch_eq] at hepoch
    exact ⟨path, (hsince he hepoch path).2 hw, hc⟩
  · rintro ⟨path, hw, hc⟩
    obtain ⟨before, between, he, hlen⟩ := h.running_begun _ hb
    have hbefore : Legal before := (he ▸ hl).of_append
    exact ⟨before, between, path, he, hbefore.logs.epoch_eq.trans hlen, (hsince he hlen path).1 hw, hc⟩

/-- A result that is stored is found afterwards unless a write has overtaken its evaluation. -/
theorem Legal.known_keep_iff (h : Legal (ops ++ [.keep key entry])) :
    (run (ops ++ [.keep key entry])).Known key ↔ ¬ Overtaken ops entry := by
  have hops : Legal ops := h.of_append
  have hb : entry.epoch ∈ (run ops).running := h ops key entry [] rfl
  have hstored {e : CacheEntry} :
      Stored (ops ++ [.keep key entry]) key e ↔ e = entry := by
    rw [stored_snoc]
    simp [CacheOp.Drops, eq_comm]
  have hwrites : writesOf (ops ++ [.keep key entry]) = writesOf ops := by
    simp [writesOf, CacheOp.written?]
  rw [hops.logs.overtaken_iff hops hb, Known, Option.isSome_iff_exists]
  simp only [h.logs.lookup_iff, hstored, hwrites, exists_eq_left, not_exists, not_and]

/-- Until a result is stored under a key, evaluations leave what is found under it alone. -/
theorem Legal.lookup_snoc {op : CacheOp} (h : Legal (ops ++ [op])) (ho : op.evaluates)
    (hne : ∀ entry, op ≠ .keep key entry) :
    (run (ops ++ [op])).lookup key = (run ops).lookup key := by
  have hwrites : writesOf (ops ++ [op]) = writesOf ops := by
    rw [writesOf_append, writesOf_eq_nil (List.forall_mem_singleton.2 ho), List.append_nil]
  refine Option.ext fun entry => ?_
  rw [h.logs.lookup_iff, h.of_append.logs.lookup_iff, hwrites, stored_snoc]
  simp [hne entry, not_drops ho hne]

/-- While evaluations go on and nothing is written, a key that is known stays known exactly if the
result that was stored last under it was not overtaken. -/
theorem Legal.known_append_iff (h : Legal (ops ++ more)) (hm : ∀ op ∈ more, op.evaluates)
    (hk : (run ops).Known key) :
    (run (ops ++ more)).Known key ↔ ∀ front entry back, more = front ++ .keep key entry :: back →
      (∀ entry, .keep key entry ∉ back) → ¬ Overtaken (ops ++ front) entry := by
  induction more using List.reverseRecOn with
  | nil => simpa using hk
  | append_singleton more op ih =>
    rw [← List.append_assoc] at h ⊢
    obtain ⟨hm, ho⟩ := List.forall_mem_append.1 hm
    have ho : op.evaluates := ho op (List.mem_singleton_self op)
    by_cases hne : ∀ entry, op ≠ .keep key entry
    · rw [Known, h.lookup_snoc ho hne, ← Known, ih h.of_append hm]
      constructor
      · intro hlast front entry back he hback
        rcases split_snoc he with ⟨hop, -, -⟩ | ⟨back', rfl, hsplit⟩
        · exact absurd hop (hne entry)
        · exact hlast front entry back' hsplit fun e hmem => hback e (List.mem_append_left _ hmem)
      · intro hlast front entry back he hback
        refine hlast front entry (back ++ [op]) (by rw [he]; simp) fun e hmem => ?_
        rcases List.mem_append.1 hmem with hmem | hmem
        · exact hback e hmem
        · exact hne e (List.mem_singleton.1 hmem).symm
    · obtain ⟨last, rfl⟩ := not_forall_not.1 hne
      rw [h.known_keep_iff]
      constructor
      · intro hlast front entry back he hback
        rcases split_snoc he with ⟨hop, rfl, -⟩ | ⟨back', rfl, -⟩
        · obtain ⟨-, rfl⟩ := CacheOp.keep.inj hop
          exact hlast
        · exact absurd (List.mem_append_right _ (List.mem_singleton_self _)) (hback last)
      · intro hlast
        exact hlast more last [] rfl fun _ => List.not_mem_nil

end Cache

namespace Traffic

open Cache

variable {σ : Type}

/-- While nothing is written, a result that is fresh gives way to one that is not exactly where an
evaluation stores its result that was overtaken by a write; in whatever order the evaluations of a
tree begin and end, its cache follows a log that tells which were. -/
theorem known_after_stores_iff (document : Value) (options : Options σ) (host : σ)
    (before later : List (Act σ)) (key : CacheKey)
    (hq : ((idle (Tree.ofDocument document options host)).run before).Quiet later)
    (hk : ((idle (Tree.ofDocument document options host)).run before).tree.world.cache.Known key) :
    let new := idle (Tree.ofDocument document options host)
    let s := new.run before
    ∃ ops more, Legal (ops ++ more) ∧ unread ops = new.changes before ∧ (∀ op ∈ more, op.evaluates) ∧
      s.tree.world.cache = Cache.run ops ∧ (s.run later).tree.world.cache = Cache.run (ops ++ more) ∧
      (∀ front entry back, more = front ++ .keep key entry :: back →
        ((Cache.run (ops ++ front ++ [.keep key entry])).Known key ↔
          ¬ Overtaken (ops ++ front) entry)) ∧
      ((s.run later).tree.world.cache.Known key ↔
        ∀ front entry back, more = front ++ .keep key entry :: back →
          (∀ entry, .keep key entry ∉ back) → ¬ Overtaken (ops ++ front) entry) := by
  intro new s
  obtain ⟨ops, hr, hops⟩ := recorded_run (recorded_idle document options host) before
  obtain ⟨more, hr', hmore⟩ := recorded_run hr later
  obtain ⟨_, _, h⟩ := hr
  obtain ⟨_, _, h'⟩ := hr'
  rw [changes_eq_nil_iff.2 hq, unread_eq_nil_iff] at hmore
  have hlegal : Legal (ops ++ more) := h'.world.legal
  have hcache : s.tree.world.cache = Cache.run ops := h.world.cache_eq
  have hcache' : (s.run later).tree.world.cache = Cache.run (ops ++ more) := h'.world.cache_eq
  refine ⟨ops, more, hlegal, hops, hmore, hcache, hcache', ?_, ?_⟩
  · rintro front entry back rfl
    have hkeep : Legal ((ops ++ front ++ [.keep key entry]) ++ back) := by
      simpa only [List.append_assoc, List.singleton_append] using hlegal
    exact hkeep.of_append.known_keep_iff
  · rw [hcache'] at *
    exact hlegal.known_append_iff hmore (hcache ▸ hk)

/-- A resolver that answers late, and one that counts its calls. -/
def counting : Options Workbench :=
  { (Options.default : Options Workbench) with
    registry := .ofList [("slow", Workbench.slow), ("count", Workbench.count)] }

/-- An expression that quotes a slot, waits, and counts how often it is evaluated. -/
def quoting : Value :=
  .obj [("x", .num (.int 1)), (".v", .str "${[x, slow(1), count()]}")]

/-- The slot is written while the expression is evaluated for one read, and it is evaluated for
another read to the end. -/
def overlapped : Traffic Workbench :=
  (idle (Tree.ofDocument quoting counting .empty)).run
    [.start .root "v" .default, .set .root "x" (.num (.int 2)), .start .root "v" .default, .poll 1]

def quotingKey : CacheKey :=
  ⟨⟨[".v"]⟩, ""⟩

theorem known_overlapped : overlapped.tree.world.cache.Known quotingKey := by
  unfold Known
  cbv

theorem not_known_overlapped :
    ¬ (overlapped.run [.poll 0]).tree.world.cache.Known quotingKey := by
  have hl : (overlapped.run [.poll 0]).tree.world.cache.lookup quotingKey = none := by cbv
  rw [Known, hl]
  exact Bool.false_ne_true

/-- What the first evaluation has stored was overtaken. -/
theorem store_overtaken : overlapped.Quiet [.poll 0] ∧
    overlapped.tree.world.cache.Known quotingKey ∧ ∃ ops entry,
      Legal (ops ++ [.keep quotingKey entry]) ∧ Overtaken ops entry ∧
        ¬ (Cache.run (ops ++ [.keep quotingKey entry])).Known quotingKey := by
  have hq : overlapped.Quiet [.poll 0] := ⟨id, trivial⟩
  refine ⟨hq, known_overlapped, ?_⟩
  obtain ⟨ops, more, hlegal, -, -, -, -, hstore, hknown⟩ :=
    known_after_stores_iff quoting counting .empty _ [.poll 0] quotingKey hq known_overlapped
  have hlost : ¬ (overlapped.run [.poll 0]).tree.world.cache.Known quotingKey := not_known_overlapped
  rw [overlapped, hknown] at hlost
  push Not at hlost
  obtain ⟨front, entry, back, rfl, -, hover⟩ := hlost
  have hkeep : Legal ((ops ++ front ++ [.keep quotingKey entry]) ++ back) := by
    simpa only [List.append_assoc, List.singleton_append] using hlegal
  exact ⟨ops ++ front, entry, hkeep.of_append, hover, fun hk => (hstore front entry back rfl).1 hk hover⟩

/-- The fresh result is gone when the first evaluation has ended, and the expression is evaluated a
third time. -/
theorem fresh_result_lost :
    overlapped.tree.world.cache.Known quotingKey ∧
      ¬ (overlapped.run [.poll 0]).tree.world.cache.Known quotingKey ∧
      overlapped.result? 1 = some (.ok (some (.arr [.num (.int 2), .null, .num (.int 1)]))) ∧
      (overlapped.run [.poll 0, .start .root "v" .default, .poll 2]).result? 2 =
        some (.ok (some (.arr [.num (.int 2), .null, .num (.int 3)]))) := by
  refine ⟨known_overlapped, not_known_overlapped, ?_, ?_⟩
  · cbv
  · cbv

end Traffic

end LiveDoc

import LiveDoc.Proofs.AlikeWorlds
import LiveDoc.Proofs.Coalescing
import LiveDoc.Proofs.LateStores

/-! # Clearing the cache as a barrier

A read that begins after the cache was cleared joins no evaluation from before. What it finds in the
cache is from before only where an earlier read has stored a result late; as long as none does, it
goes on as if the tree had been new when the cache was cleared.
-/

namespace LiveDoc

variable {σ α : Type}

/-- The tree with nothing kept and no read under way. -/
def Tree.forgotten (t : Tree σ) : Tree σ :=
  ⟨t.options, { t.world with cache := .empty }, 0, [], []⟩

namespace Act

/-- The act begins a read, goes on with one, clears the cache or changes the host. -/
def ReadsOrClears : Act σ → Prop
  | .start _ _ _ | .poll _ | .clearCache | .host _ => True
  | .set _ _ _ | .delete _ _ | .clear _ _ | .setContext _ => False

/-- The act as it is seen without the reads at the first places: of these only what they do to the
host. -/
def without (n : Nat) (s : Traffic σ) : Act σ → Act σ
  | .poll place =>
    if place < n then .host (s.act (.poll place)).tree.world.host else .poll (place - n)
  | a => a

end Act

namespace Traffic

/-- The acts as they are seen without the reads at the first places. -/
def without (n : Nat) (s : Traffic σ) : List (Act σ) → List (Act σ)
  | [] => []
  | a :: rest => a.without n s :: (s.act a).without n rest

/-- None of the reads at the first places stores a result. -/
def NoneStores (n : Nat) (s : Traffic σ) : List (Act σ) → Prop
  | [] => True
  | a :: rest => (∀ place < n, a = .poll place →
      (s.act a).tree.world.cache.entries = s.tree.world.cache.entries) ∧ (s.act a).NoneStores n rest

end Traffic

/-- A key of later generations. -/
def ReadKey.later (generations : Nat) (key : ReadKey) : ReadKey :=
  { key with generation := key.generation + generations }

theorem ReadKey.later_injective {generations : Nat} {key key' : ReadKey}
    (h : key.later generations = key'.later generations) : key = key' := by
  obtain ⟨path, scope, fallback, generation⟩ := key
  obtain ⟨path', scope', fallback', generation'⟩ := key'
  simp only [later, mk.injEq, Nat.add_right_cancel_iff] at h
  simpa only [mk.injEq] using h

/-- What is left of two computations is the same as far as worlds that are alike tell. -/
inductive Progress.Alike (epoch epoch' : Nat) : Progress σ α → Progress σ α → Prop where
  | finished (a : α) : Progress.Alike epoch epoch' (.finished a) (.finished a)
  | waiting {call : Call σ} {next next' : Except String Value → World σ → Step σ α}
    (rest : ∀ answer v v', v.Alike epoch epoch' v' →
      (next answer v).Alike epoch epoch' (next' answer v')) :
    Progress.Alike epoch epoch' (.waiting call next) (.waiting call next')

namespace Progress

variable {epoch epoch' : Nat} {w w' : World σ}

theorem alike_ofStep {s s' : Step σ α} (h : s.Alike epoch epoch' s') :
    (ofStep s).Alike epoch epoch' (ofStep s') := by
  cases h with
  | done world => exact .finished _
  | wait world rest => exact .waiting rest

theorem Alike.result?_eq {p p' : Progress σ α} (h : p.Alike epoch epoch' p') :
    p.result? = p'.result? := by
  cases h <;> rfl

theorem Alike.poll {p p' : Progress σ α} (h : p.Alike epoch epoch' p')
    (hw : w.Alike epoch epoch' w') : (p.poll w).Alike epoch epoch' (p'.poll w') := by
  cases h with
  | finished a => exact .done hw
  | waiting rest => exact Step.alike_poll rest hw

end Progress

/-- Two reads, of which the numbers of shared evaluations differ by a given number. -/
inductive Reading.Alike (epoch epoch' m : Nat) : Reading σ → Reading σ → Prop where
  | alone {p p' : Progress σ ReadResult} (h : p.Alike epoch epoch' p') :
    Reading.Alike epoch epoch' m (.alone p) (.alone p')
  | joined (k : Nat) : Reading.Alike epoch epoch' m (.joined (m + k)) (.joined k)

/-- Behind a number of earlier evaluations, which can be joined no more, a tree is like another one
in all that reads share. -/
structure Tree.Behind (epoch m generations : Nat) (t t' : Tree σ) : Prop where
  options : t.options = t'.options
  world : t.world.Alike epoch 0 t'.world
  generation : t.generation = t'.generation + generations
  length : t.shared.length = m + t'.shared.length
  shared : ∀ k p', t'.shared[k]? = some p' → ∃ p, t.shared[m + k]? = some p ∧ p.Alike epoch 0 p'
  inflight : ∀ key k, (key.later generations, m + k) ∈ t.inflight ↔ (key, k) ∈ t'.inflight
  fence : ∀ e ∈ t.inflight, e.2 < m ↔ e.1.generation < generations

namespace Tree.Behind

variable {epoch m generations : Nat} {t t' : Tree σ}

/-- A shared evaluation has come to a step. -/
theorem keepShared (h : t.Behind epoch m generations t') {k : Nat} (hk : k < t'.shared.length)
    {step step' : Step σ ReadResult} (hs : step.Alike epoch 0 step') :
    (t.keepShared (m + k) step).Behind epoch m generations (t'.keepShared k step') := by
  obtain ⟨ho, hw, hshared⟩ := t.keepShared_eq (m + k) step
  obtain ⟨ho', hw', hshared'⟩ := t'.keepShared_eq k step'
  have hmk : m + k < t.shared.length := by rw [h.length]; omega
  refine ⟨?_, ?_, ?_, ?_, fun j p' hj => ?_, fun key j => ?_, fun e he => ?_⟩
  · rw [ho, ho', h.options]
  · rw [hw, hw']
    exact hs.world
  · rw [generation_keepShared, generation_keepShared, h.generation]
  · rw [length_keepShared, length_keepShared, h.length]
  · rw [hshared'] at hj
    rw [hshared]
    by_cases hjk : j = k
    · subst hjk
      rw [List.getElem?_set_self hk, Option.some.injEq] at hj
      subst hj
      exact ⟨_, List.getElem?_set_self hmk, Progress.alike_ofStep hs⟩
    · rw [List.getElem?_set_ne (Ne.symm hjk)] at hj
      rw [List.getElem?_set_ne (by omega)]
      exact h.shared j p' hj
  · rw [mem_inflight_keepShared, mem_inflight_keepShared, h.inflight,
      (Progress.alike_ofStep hs).result?_eq]
    simp only [Nat.add_left_cancel_iff]
  · exact h.fence e (mem_inflight_keepShared.1 he).1

theorem pollShared (h : t.Behind epoch m generations t') (k : Nat) :
    (t.pollShared (m + k)).Behind epoch m generations (t'.pollShared k) := by
  unfold Tree.pollShared
  cases hp' : t'.shared[k]? with
  | none =>
    have hk : t'.shared.length ≤ k := List.getElem?_eq_none_iff.1 hp'
    rw [List.getElem?_eq_none (by rw [h.length]; omega)]
    exact h
  | some p' =>
    obtain ⟨p, hp, ha⟩ := h.shared k p' hp'
    rw [hp]
    exact h.keepShared (List.getElem?_eq_some_iff.1 hp').1 (ha.poll h.world)

/-- A shared evaluation has been begun. -/
theorem opening (h : t.Behind epoch m generations t') (key : ReadKey)
    {step step' : Step σ ReadResult} (hs : step.Alike epoch 0 step') :
    (t.opening (key.later generations) step).Behind epoch m generations (t'.opening key step') where
  options := h.options
  world := h.world
  generation := h.generation
  length := by
    rw [length_opening, length_opening, h.length, Nat.add_assoc]
  shared j p' hj := by
    rcases Nat.lt_or_ge j t'.shared.length with hlt | hge
    · rw [Tree.opening, List.getElem?_append_left hlt] at hj
      obtain ⟨p, hp, ha⟩ := h.shared j p' hj
      refine ⟨p, ?_, ha⟩
      rw [Tree.opening, List.getElem?_append_left (List.getElem?_eq_some_iff.1 hp).1, hp]
    · have hj' := (List.getElem?_eq_some_iff.1 hj).1
      rw [length_opening] at hj'
      obtain rfl : j = t'.shared.length := by omega
      rw [Tree.opening, List.getElem?_concat_length, Option.some.injEq] at hj
      subst hj
      refine ⟨Progress.ofStep step, ?_, Progress.alike_ofStep hs⟩
      rw [Tree.opening, ← h.length, List.getElem?_concat_length]
  inflight key' j := by
    simp only [Tree.opening, List.mem_append, List.mem_singleton, Prod.mk.injEq, h.inflight, h.length,
      Nat.add_left_cancel_iff]
    refine or_congr_right (and_congr_left fun _ => ⟨ReadKey.later_injective, congrArg _⟩)
  fence e he := by
    rcases List.mem_append.1 he with he | he
    · exact h.fence e he
    · rw [List.mem_singleton.1 he]
      simp only [h.length, ReadKey.later]
      omega

theorem readKey (h : t.Behind epoch m generations t') (path : Path) (asked : ReadOptions) :
    t.readKey path asked = (t'.readKey path asked).later generations := by
  simp only [Tree.readKey, ReadKey.later, h.generation]

/-- A new read joins what the same read joins in the other tree. -/
theorem lookup (h : t.Behind epoch m generations t') (ho : t.Orderly) (ho' : t'.Orderly)
    (path : Path) (asked : ReadOptions) : t.inflight.lookup (t.readKey path asked) =
      (t'.inflight.lookup (t'.readKey path asked)).map (m + ·) := by
  rw [h.readKey]
  cases hl' : t'.inflight.lookup (t'.readKey path asked) with
  | some k =>
    have hm := (h.inflight _ k).2 (Assoc.mem_of_lookup hl')
    exact ho.lookup_eq hm
  | none =>
    refine Option.eq_none_iff_forall_ne_some.2 fun n hl => ?_
    have hm := Assoc.mem_of_lookup hl
    -- The generation is behind the fence, so the number is.
    have hn : m ≤ n := by
      have hfence := h.fence _ hm
      simp only [ReadKey.later] at hfence
      omega
    obtain ⟨k, rfl⟩ := Nat.exists_eq_add_of_le hn
    rw [ho'.lookup_eq ((h.inflight _ k).1 hm)] at hl'
    cases hl'

/-- Reads on their own have gone on alike. -/
theorem withWorld (h : t.Behind epoch m generations t') {w w' : World σ}
    (hw : w.Alike epoch 0 w') :
    Tree.Behind epoch m generations { t with world := w } { t' with world := w' } :=
  ⟨h.options, hw, h.generation, h.length, h.shared, h.inflight, h.fence⟩

theorem start (h : t.Behind epoch m generations t') (ho : t.Orderly) (ho' : t'.Orderly)
    (base : Path) (text : String) (asked : ReadOptions) :
    (t.start base text asked).1.Behind epoch m generations (t'.start base text asked).1 ∧
      (t.start base text asked).2.Alike epoch 0 m (t'.start base text asked).2 := by
  have hread (path : Path) (fresh : Bool) :
      ((t.request asked).read path fresh t.world).Alike epoch 0
        ((t'.request asked).read path fresh t'.world) := by
    rw [Tree.request, Tree.request, h.options]
    exact Request.alike_read _ path fresh h.world
  unfold Tree.start
  cases base.resolve text with
  | error e => exact ⟨h, .alone (.finished _)⟩
  | ok path =>
    simp only [startAt]
    cases asked.fresh with
    | true =>
      simp only [if_true]
      exact ⟨h.withWorld (hread path true).world, .alone (Progress.alike_ofStep (hread path true))⟩
    | false =>
      simp only [Bool.false_eq_true, if_false, h.lookup ho ho']
      cases t'.inflight.lookup (t'.readKey path asked) with
      | some k => exact ⟨h.pollShared k, .joined k⟩
      | none =>
        have hopen := h.opening (t'.readKey path asked) (hread path false)
        have hkeep := hopen.keepShared lt_opening (hread path false)
        rw [← h.readKey, ← h.length] at hkeep
        refine ⟨hkeep, ?_⟩
        simp only [h.length]
        exact .joined _

/-- A read and the same read in the other tree go on alike. -/
theorem poll (h : t.Behind epoch m generations t') {r r' : Reading σ} (hr : r.Alike epoch 0 m r') :
    (t.poll r).1.Behind epoch m generations (t'.poll r').1 ∧
      (t.poll r).2.Alike epoch 0 m (t'.poll r').2 := by
  cases hr with
  | alone ha =>
    have hp := ha.poll h.world
    exact ⟨h.withWorld hp.world, .alone (Progress.alike_ofStep hp)⟩
  | joined k => exact ⟨h.pollShared k, .joined k⟩

theorem result?_eq (h : t.Behind epoch m generations t') {r r' : Reading σ}
    (hr : r.Alike epoch 0 m r') : t.result? r = t'.result? r' := by
  cases hr with
  | alone ha => exact ha.result?_eq
  | joined k =>
    simp only [Tree.result?]
    cases hp' : t'.shared[k]? with
    | none =>
      have hk := List.getElem?_eq_none_iff.1 hp'
      rw [List.getElem?_eq_none (by rw [h.length]; omega)]
    | some p' =>
      obtain ⟨p, hp, ha⟩ := h.shared k p' hp'
      rw [hp]
      exact ha.result?_eq

theorem clearCache (h : t.Behind epoch m generations t') :
    t.clearCache.Behind epoch m generations t'.clearCache where
  options := h.options
  world := h.world.clear
  generation := by
    show t.generation + 1 = t'.generation + 1 + generations
    rw [h.generation]
    omega
  length := h.length
  shared := h.shared
  inflight := h.inflight
  fence := h.fence

/-- An earlier read has gone on. -/
theorem earlier (h : t.Behind epoch m generations t') {t₁ : Tree σ} {w' : World σ}
    (ho : t₁.options = t.options) (hg : t₁.generation = t.generation)
    (hlength : t₁.shared.length = t.shared.length)
    (hshared : ∀ k, m ≤ k → t₁.shared[k]? = t.shared[k]?)
    (hinflight : ∀ e, e ∈ t₁.inflight → e ∈ t.inflight)
    (hsame : ∀ e ∈ t.inflight, m ≤ e.2 → e ∈ t₁.inflight)
    (hw : t₁.world.Alike epoch 0 w') :
    t₁.Behind epoch m generations { t' with world := w' } where
  options := ho.trans h.options
  world := hw
  generation := hg.trans h.generation
  length := hlength.trans h.length
  shared k p' hk := by
    obtain ⟨p, hp, ha⟩ := h.shared k p' hk
    exact ⟨p, (hshared _ (Nat.le_add_right m k)).trans hp, ha⟩
  inflight key k := by
    rw [← h.inflight]
    exact ⟨hinflight _, fun he => hsame _ he (Nat.le_add_right m k)⟩
  fence e he := h.fence e (hinflight e he)

end Tree.Behind

/-- What was under way when the cache was cleared can be joined no more. -/
theorem Tree.Orderly.behind_clearCache {t : Tree σ} (h : t.Orderly) (ht : t.world.cache.Timely) :
    t.clearCache.Behind t.world.cache.epoch t.shared.length (t.generation + 1) t.forgotten where
  options := rfl
  world := by
    refine ⟨rfl, rfl, rfl, Cache.prune_epoch _, rfl, ht.clear, Cache.timely_empty, fun key => ?_⟩
    have hcleared : t.clearCache.world.cache.lookup key = none := Cache.lookup_clear _ key
    rw [hcleared]
    rfl
  generation := (Nat.zero_add _).symm
  length := rfl
  shared k p' hk := by cases hk
  inflight key k := by
    constructor
    · intro he
      have hlt := ((h.unended _).1 (List.mem_map_of_mem he)).1
      omega
    · intro he
      cases he
  fence e he := by
    have hlt := ((h.unended _).1 (List.mem_map_of_mem he)).1
    have hgeneration := h.generation_le e he
    exact ⟨fun _ => Nat.lt_succ_of_le hgeneration, fun _ => hlt⟩

/-- Behind a number of earlier reads, traffic is like other traffic. -/
structure Traffic.Behind (epoch m generations n : Nat) (s s' : Traffic σ) : Prop where
  tree : s.tree.Behind epoch m generations s'.tree
  length : s.reads.length = n + s'.reads.length
  reads : ∀ i asked r', s'.reads[i]? = some (asked, r') →
    ∃ r, s.reads[n + i]? = some (asked, r) ∧ r.Alike epoch 0 m r'
  earlier : ∀ i < n, ∀ asked k, s.reads[i]? = some (asked, .joined k) → k < m

namespace Traffic.Behind

variable {epoch m generations n : Nat} {s s' : Traffic σ}

/-- A read has begun in both. -/
theorem begun (h : s.Behind epoch m generations n s') {t t' : Tree σ}
    (ht : t.Behind epoch m generations t') (asked : ReadOptions) {r r' : Reading σ}
    (hr : r.Alike epoch 0 m r') : Traffic.Behind epoch m generations n
      ⟨t, s.reads ++ [(asked, r)]⟩ ⟨t', s'.reads ++ [(asked, r')]⟩ where
  tree := ht
  length := by
    rw [List.length_append, List.length_append, h.length, Nat.add_assoc]
    rfl
  reads i asked' r₀' hi := by
    rcases Nat.lt_or_ge i s'.reads.length with hlt | hge
    · rw [List.getElem?_append_left hlt] at hi
      obtain ⟨r₀, hr₀, ha⟩ := h.reads i asked' r₀' hi
      refine ⟨r₀, ?_, ha⟩
      rw [List.getElem?_append_left (List.getElem?_eq_some_iff.1 hr₀).1, hr₀]
    · have hi' := (List.getElem?_eq_some_iff.1 hi).1
      rw [List.length_append, List.length_singleton] at hi'
      obtain rfl : i = s'.reads.length := by omega
      rw [List.getElem?_concat_length, Option.some.injEq, Prod.mk.injEq] at hi
      obtain ⟨rfl, rfl⟩ := hi
      refine ⟨r, ?_, hr⟩
      rw [← h.length, List.getElem?_concat_length]
  earlier i hi asked' k hk := by
    rw [List.getElem?_append_left (by rw [h.length]; omega)] at hk
    exact h.earlier i hi asked' k hk

theorem start (h : s.Behind epoch m generations n s') (hs : s.Orderly) (hs' : s'.Orderly)
    (base : Path) (text : String) (asked : ReadOptions) :
    (s.act (.start base text asked)).Behind epoch m generations n
      (s'.act (.start base text asked)) := by
  obtain ⟨ht, hr⟩ := h.tree.start hs.tree hs'.tree base text asked
  exact h.begun ht asked hr

/-- A read has gone on in both. -/
theorem poll (h : s.Behind epoch m generations n s') (i : Nat) :
    (s.act (.poll (n + i))).Behind epoch m generations n (s'.act (.poll i)) := by
  simp only [act]
  cases hi : s'.reads[i]? with
  | none =>
    have hlen := List.getElem?_eq_none_iff.1 hi
    rw [List.getElem?_eq_none (by rw [h.length]; omega)]
    exact h
  | some e' =>
    obtain ⟨asked, r'⟩ := e'
    obtain ⟨r, hr, ha⟩ := h.reads i asked r' hi
    obtain ⟨ht, hr'⟩ := h.tree.poll ha
    rw [hr]
    refine ⟨ht, ?_, fun j asked' r₀' hj => ?_, fun j hj asked' k hk => ?_⟩
    · simp only [List.length_set, h.length]
    · have hlt' := (List.getElem?_eq_some_iff.1 hi).1
      have hlt : n + i < s.reads.length := by rw [h.length]; omega
      by_cases hji : j = i
      · subst hji
        rw [List.getElem?_set_self hlt', Option.some.injEq, Prod.mk.injEq] at hj
        obtain ⟨rfl, rfl⟩ := hj
        exact ⟨_, List.getElem?_set_self hlt, hr'⟩
      · rw [List.getElem?_set_ne (Ne.symm hji)] at hj
        rw [List.getElem?_set_ne (by omega)]
        exact h.reads j asked' r₀' hj
    · rw [List.getElem?_set_ne (by omega)] at hk
      exact h.earlier j hj asked' k hk

/-- An earlier read goes on with no other evaluation than an earlier one. -/
theorem poll_frame (h : s.Behind epoch m generations n s') {place : Nat} (hp : place < n) :
    let t := (s.act (.poll place)).tree
    t.options = s.tree.options ∧ t.generation = s.tree.generation ∧
      t.shared.length = s.tree.shared.length ∧ (∀ k, m ≤ k → t.shared[k]? = s.tree.shared[k]?) ∧
      (∀ e ∈ t.inflight, e ∈ s.tree.inflight) ∧ ∀ e ∈ s.tree.inflight, m ≤ e.2 → e ∈ t.inflight := by
  simp only [act]
  cases hr : s.reads[place]? with
  | none => exact ⟨rfl, rfl, rfl, fun _ _ => rfl, fun _ => id, fun _ he _ => he⟩
  | some e =>
    obtain ⟨asked, _ | number⟩ := e
    · exact ⟨rfl, rfl, rfl, fun _ _ => rfl, fun _ => id, fun _ he _ => he⟩
    · have hm := h.earlier place hp asked number hr
      obtain ⟨ho, hs, hi, hi'⟩ := s.tree.pollShared_frame number
      exact ⟨ho, s.tree.generation_pollShared number, s.tree.length_pollShared number,
        fun k hk => hs k (by omega), hi, fun e he hme => hi' e he (by omega)⟩

/-- An earlier read has gone on without storing a result. -/
theorem pollEarlier (h : s.Behind epoch m generations n s') {ops : List CacheOp}
    (hrec : s.Recorded ops) {place : Nat} (hp : place < n)
    (he : (s.act (.poll place)).tree.world.cache.entries = s.tree.world.cache.entries) :
    (s.act (.poll place)).Behind epoch m generations n
      (s'.act (.host (s.act (.poll place)).tree.world.host)) := by
  obtain ⟨_, _, hrec⟩ := hrec
  obtain ⟨ops', ⟨_, _, hrec'⟩, hreads⟩ := hrec.poll place
  have hw := h.tree.world.after_reads hreads hrec.world.cache_eq hrec'.world.cache_eq he
  have hother (i : Nat) : (s.act (.poll place)).reads[n + i]? = s.reads[n + i]? := by
    simp only [act]
    split
    · rfl
    · rw [List.getElem?_set_ne (by omega)]
  have hlength : (s.act (.poll place)).reads.length = s.reads.length := by
    simp only [act]
    split
    · rfl
    · rw [List.length_set]
  refine ⟨?_, hlength.trans h.length, fun i asked r' hi => ?_, fun i hi asked k hk => ?_⟩
  · obtain ⟨ho, hg, hl, hs, hi, hi'⟩ := h.poll_frame hp
    exact h.tree.earlier ho hg hl hs hi hi' hw
  · obtain ⟨r, hr, ha⟩ := h.reads i asked r' hi
    exact ⟨r, (hother i).trans hr, ha⟩
  · exact h.earlier i hi asked k ((reads_act (by rw [h.length]; omega)).1 hk)

/-- Whatever is done to both, an act is seen in the other traffic as it is without the earlier
reads. -/
theorem act (h : s.Behind epoch m generations n s') (hs : s.Orderly) (hs' : s'.Orderly)
    {ops : List CacheOp} (hrec : s.Recorded ops) {a : Act σ} (ha : a.ReadsOrClears)
    (hn : ∀ place < n, a = .poll place →
      (s.act a).tree.world.cache.entries = s.tree.world.cache.entries) :
    (s.act a).Behind epoch m generations n (s'.act (a.without n s)) := by
  cases a with
  | start base text asked => exact h.start hs hs' base text asked
  | poll place =>
    by_cases hp : place < n
    · rw [Act.without, if_pos hp]
      exact h.pollEarlier hrec hp (hn place hp rfl)
    · obtain ⟨i, rfl⟩ := Nat.exists_eq_add_of_le (Nat.le_of_not_lt hp)
      rw [Act.without, if_neg hp, Nat.add_sub_cancel_left]
      exact h.poll i
  | clearCache => exact ⟨h.tree.clearCache, h.length, h.reads, h.earlier⟩
  | host host => exact ⟨h.tree.withWorld (h.tree.world.withHost host), h.length, h.reads, h.earlier⟩
  | set | delete | clear | setContext => exact ha.elim

theorem run (h : s.Behind epoch m generations n s') (hs : s.Orderly) (hs' : s'.Orderly)
    {ops : List CacheOp} (hrec : s.Recorded ops) {acts : List (Act σ)}
    (ha : ∀ a ∈ acts, a.ReadsOrClears) (hn : s.NoneStores n acts) :
    (s.run acts).Behind epoch m generations n (s'.run (s.without n acts)) := by
  induction acts generalizing s s' ops with
  | nil => exact h
  | cons a rest ih =>
    obtain ⟨ha, hrest⟩ := List.forall_mem_cons.1 ha
    obtain ⟨more, hrec', -⟩ := hrec.act a
    exact ih (h.act hs hs' hrec ha hn.1) (hs.act a) (hs'.act _) hrec' hrest hn.2

theorem result?_eq (h : s.Behind epoch m generations n s') (i : Nat) :
    s.result? (n + i) = s'.result? i := by
  simp only [Traffic.result?]
  cases hi : s'.reads[i]? with
  | none =>
    have hlen := List.getElem?_eq_none_iff.1 hi
    rw [List.getElem?_eq_none (by rw [h.length]; omega)]
    rfl
  | some e' =>
    obtain ⟨asked, r'⟩ := e'
    obtain ⟨r, hr, ha⟩ := h.reads i asked r' hi
    rw [hr]
    exact h.tree.result?_eq ha

end Traffic.Behind

namespace Traffic

variable {s : Traffic σ}

/-- When the cache has just been cleared, everything under way lies behind. -/
theorem behind_cleared (hs : s.Orderly) {ops : List CacheOp} (hrec : s.Recorded ops) :
    (s.act .clearCache).Behind s.tree.world.cache.epoch s.tree.shared.length (s.tree.generation + 1)
      s.reads.length (idle s.tree.forgotten) where
  tree := by
    obtain ⟨_, _, hrec⟩ := hrec
    have htimely : s.tree.world.cache.Timely := by
      rw [hrec.world.cache_eq]
      exact hrec.world.legal.logs.timely
    exact hs.tree.behind_clearCache htimely
  length := rfl
  reads i asked r' hi := by cases hi
  earlier i _ asked k hk := (hs.joined asked k (List.mem_of_getElem? hk)).2

/-- A read that begins after something has changed joins no evaluation from before. -/
theorem joined_after_clearCache (hs : s.Orderly) {acts : List (Act σ)} {place number : Nat}
    {asked : ReadOptions} (hp : s.reads.length ≤ place)
    (hr : ((s.act .clearCache).run acts).reads[place]? = some (asked, .joined number)) :
    s.tree.shared.length ≤ number := by
  have hlt := (List.getElem?_eq_some_iff.1 hr).1
  have hcleared : (s.act .clearCache).reads.length ≤ place := hp
  obtain ⟨front, base, text, asked', back, rfl, rfl⟩ := exists_start hcleared hlt
  rw [run_append, run_cons, reads_started rfl] at hr
  obtain ⟨rfl, hjoined⟩ := hr
  have ho := (hs.act .clearCache).run front
  have hp' := (s.act .clearCache).precedes_run front
  obtain ⟨path, -, -, -, hfound, -⟩ := ho.tree.start_joined hjoined
  by_contra hold
  -- The key would be as old as the evaluation, but it is of the present generation.
  have hn : number < (s.act .clearCache).tree.shared.length := Nat.lt_of_not_le hold
  have hkey := hp'.old _ (hfound (Nat.lt_of_lt_of_le hn hp'.length_le)) hn
  have hgeneration := hs.tree.generation_le _ hkey
  exact absurd (Nat.le_trans hp'.generation_le hgeneration) (Nat.not_succ_le_self _)

/-- A read that begins after the cache was cleared joins no evaluation from before. As long as no
earlier read stores a result, later reads go on, in whatever order all of them do, as on a tree on
which nothing was read before. -/
theorem results_after_clearCache (document : Value) (options : Options σ) (host : σ)
    (before later : List (Act σ)) (hl : ∀ a ∈ later, a.ReadsOrClears)
    (hn : (((idle (Tree.ofDocument document options host)).run before).act .clearCache).NoneStores
      ((idle (Tree.ofDocument document options host)).run before).reads.length later) :
    let s := (idle (Tree.ofDocument document options host)).run before
    let cleared := s.act .clearCache
    (∀ acts place asked number, s.reads.length ≤ place →
      (cleared.run acts).reads[place]? = some (asked, .joined number) →
        s.tree.shared.length ≤ number) ∧
    ∀ i, (cleared.run later).result? (s.reads.length + i) =
      ((idle s.tree.forgotten).run (cleared.without s.reads.length later)).result? i := by
  intro s cleared
  have hs : s.Orderly := (Orderly.idle (.ofDocument document options host) rfl).run before
  obtain ⟨ops, hrec, -⟩ := recorded_run (recorded_idle document options host) before
  obtain ⟨more, hcleared, -⟩ := hrec.act .clearCache
  have hforgotten : (idle s.tree.forgotten).Orderly :=
    .idle ⟨.nil, .nil, nofun, fun n => by simp [Tree.forgotten]⟩ rfl
  refine ⟨fun acts place asked number hp hr => joined_after_clearCache hs hp hr, fun i => ?_⟩
  exact ((behind_cleared hs hrec).run (hs.act .clearCache) hforgotten hcleared hl hn).result?_eq i

/-- An expression that waits twice and counts how often it is evaluated. -/
def patient : Value :=
  .obj [(".v", .str "${[slow(2), count()]}")]

/-- A read of the expression waits. -/
def waiting : Traffic Workbench :=
  (idle (Tree.ofDocument patient counting .empty)).run [.start .root "v" .default]

/-- The earlier read goes on, but still waits when the later one has ended. -/
def stillWaiting : List (Act Workbench) :=
  [.start .root "v" .default, .poll 0, .poll 1, .poll 1]

/-- The earlier read ends before the later one begins. -/
def endedBefore : List (Act Workbench) :=
  [.poll 0, .poll 0, .start .root "v" .default, .poll 1, .poll 1]

theorem noneStores_stillWaiting : (waiting.act .clearCache).NoneStores 1 stillWaiting := by
  unfold stillWaiting
  simp only [NoneStores, and_true]
  refine ⟨fun place hp h => ?_, fun place hp h => ?_, fun place hp h => ?_, fun place hp h => ?_⟩
  · cases h
  · obtain rfl : place = 0 := by omega
    cbv
  · cases h
    omega
  · cases h
    omega

/-- The later read evaluates the expression itself, as it does without the earlier one. -/
theorem evaluates_beside_waiting : (waiting.act .clearCache).NoneStores 1 stillWaiting ∧
    ((waiting.act .clearCache).run stillWaiting).result? 1 =
      ((idle waiting.tree.forgotten).run
        ((waiting.act .clearCache).without 1 stillWaiting)).result? 0 := by
  have hl : ∀ a ∈ stillWaiting, a.ReadsOrClears := by
    simp [stillWaiting, Act.ReadsOrClears]
  have hn := noneStores_stillWaiting
  exact ⟨hn, (results_after_clearCache patient counting .empty [.start .root "v" .default] stillWaiting
    hl hn).2 0⟩

/-- The later read is given the result of the earlier evaluation; it counts once, where without the
earlier read it counts a second time. -/
theorem late_result_crosses :
    ((waiting.act .clearCache).run endedBefore).result? 1 =
        some (.ok (some (.arr [.null, .num (.int 1)]))) ∧
      ((waiting.act .clearCache).run endedBefore).tree.world.host.counter = 1 ∧
      ((idle waiting.tree.forgotten).run
        ((waiting.act .clearCache).without 1 endedBefore)).result? 0 =
          some (.ok (some (.arr [.null, .num (.int 2)]))) := by
  refine ⟨?_, ?_, ?_⟩
  · cbv
  · cbv
  · cbv

end Traffic

end LiveDoc

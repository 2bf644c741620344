import LiveDoc.Proofs.Logbook
import LiveDoc.Proofs.Moments
import LiveDoc.Proofs.ReferenceGraph
import Mathlib

/-! # Reads along references

In a graph of references an evaluation waits for the one that its reference names, and so along the walk.
Without a hook a read comes to what the walk ends with.
-/

namespace LiveDoc

variable {σ α : Type}

/-- The task comes to an end at once. -/
def Task.Comes (t : Task σ α) (stack : Stack) (w : World σ) (a : α) : Prop :=
  ∃ stack' w', t stack w = .done (a, stack') w'

/-- The result of an evaluation that has told of its failure. -/
def told (r : Except Fault Value) : Except Fault Value :=
  r.mapError fun fault => ⟨fault.error, true⟩

/-- What is left to do of a reference to a sibling once it is found. -/
def Plan.quote (target : String) (found : Found) : Plan Value :=
  (descend false found.levels found).bind fun v =>
    answer <| match v with
      | some v => .done (.ok v)
      | none => (Query.pastEnd ⟨[target]⟩ (Query.indexPlaces 0 [target])).bind fun past =>
        if past then .done (.ok .null) else Query.fail (.notFound ⟨[target]⟩)

/-- An expression of the root that is a reference to a sibling looks for it. -/
theorem Plan.render_reference {key text target : String} {c : Context} (ht : target ≠ contextKey)
    (hp : Template.parse text = .ok [.span (.ref 0 [.key target])]) :
    Plan.render ⟨⟨[key]⟩, text, c, []⟩ = .find ⟨[target]⟩ (Plan.quote target) := by
  have hname : ¬ ((0 : Nat) = 0 ∧ some target = some contextKey) := by
    rintro ⟨-, h⟩
    exact ht (Option.some.inj h)
  have hquery : Query.ofTemplate ⟨.root, c⟩ [.span (.ref 0 [.key target])] =
      Query.follow ⟨.root, c⟩ 0 [target] false := by
    rw [Query.ofTemplate, Query.ofExpr, Query.ofReference, if_neg (Nat.not_lt_zero _), Query.ofSteps,
      Query.ofSteps]
    rfl
  have hrender : Plan.render ⟨⟨[key]⟩, text, c, []⟩ =
      Plan.answer (Query.follow ⟨.root, c⟩ 0 [target] false) := by
    rw [Plan.render, hp]
    exact congrArg Plan.answer hquery
  rw [hrender, Query.follow, List.head?_cons, if_neg hname]
  rfl

namespace Request

variable {request : Request σ} {members : Members} {stack : Stack} {w : World σ} {left : Nat}

/-! ## Evaluations that end at once -/

theorem comes_recover (hook : request.options.onError = none) (error : EvalError) (path : Path) :
    (request.recover error path).Comes stack w (.error ⟨error, true⟩) := by
  refine ⟨stack, w, ?_⟩
  unfold recover
  rw [hook]
  rfl

theorem evaluate_of_unknown {site : Site} (hk : w.cache.lookup (keyOf site) = none) :
    request.evaluate left site false stack w =
      (if stack.holds site.path then
        request.recover (.cycle (stack.chainTo site.path)) site.path
      else
        match left with
        | 0 => request.recover (.depth request.options.maxDepth site.path) site.path
        | left + 1 => request.compute (request.evaluate left) site >>= fun r =>
          match r with
          | .ok v => pure (.ok v)
          | .error fault =>
            if fault.reported then pure (.error fault)
            else request.recover fault.error site.path) stack w := by
  have hremembered : (remembered site false : Task σ (Option Value)) stack w = .done (none, stack) w := by
    rw [remembered, if_neg Bool.false_ne_true, keptResult]
    show Step.bind (.done (w, stack) w) _ = _
    simp only [Step.bind, hk]
    rfl
  unfold evaluate
  show Step.bind _ _ = _
  rw [hremembered]
  show (if stack.holds site.path then _ else _ : Task σ (Except Fault Value)) stack w = _
  split
  · rfl
  · cases left <;> rfl

theorem comes_cycle (hook : request.options.onError = none) {site : Site}
    (hk : w.cache.lookup (keyOf site) = none) (hs : stack.holds site.path = true) :
    (request.evaluate left site false).Comes stack w
      (.error ⟨.cycle (stack.chainTo site.path), true⟩) := by
  unfold Task.Comes
  rw [evaluate_of_unknown hk, if_pos hs]
  exact comes_recover hook _ _

theorem comes_tooDeep (hook : request.options.onError = none) {site : Site}
    (hk : w.cache.lookup (keyOf site) = none) (hs : stack.holds site.path = false) :
    (request.evaluate 0 site false).Comes stack w
      (.error ⟨.depth request.options.maxDepth site.path, true⟩) := by
  unfold Task.Comes
  rw [evaluate_of_unknown hk, if_neg (by rw [hs]; exact Bool.false_ne_true)]
  exact comes_recover hook _ _

/-- An evaluation comes to what its template does, and has told of a failure. -/
theorem comes_computed (hook : request.options.onError = none) {site : Site}
    (hk : w.cache.lookup (keyOf site) = none) (hs : stack.holds site.path = false)
    {r : Except Fault Value}
    (hr : (request.follow (request.evaluate left) (Plan.render site)).Comes
      (.enter site.path :: stack) { w with cache := w.cache.begin } r) :
    (request.evaluate (left + 1) site false).Comes stack w (told r) := by
  obtain ⟨frames, v, hr⟩ := hr
  have hcompute : request.compute (request.evaluate left) site stack w =
      .done (r, Stack.pop frames) { v with
        cache := store site w.cache.epoch r frames (v.cache.finish w.cache.epoch) } := by
    rw [compute_eq, hr]
    rfl
  unfold Task.Comes
  rw [evaluate_of_unknown hk, if_neg (by rw [hs]; exact Bool.false_ne_true)]
  show ∃ stack' w', Step.bind (request.compute (request.evaluate left) site stack w) _ = _
  rw [hcompute]
  match r with
  | .ok v => exact ⟨_, _, rfl⟩
  | .error ⟨error, true⟩ => exact ⟨_, _, rfl⟩
  | .error ⟨error, false⟩ => exact comes_recover hook error site.path

/-! ## Along a walk -/

/-- Over a document nothing is kept. -/
structure Unkept (members : Members) (w : World σ) : Prop where
  document : w.document = .obj members
  entries : w.cache.entries = []

theorem Unkept.lookup (h : Unkept members w) (key : CacheKey) : w.cache.lookup key = none := by
  rw [Cache.lookup, h.entries]
  rfl

theorem Unkept.begin (h : Unkept members w) : Unkept members { w with cache := w.cache.begin } :=
  ⟨h.document, h.entries⟩

/-- The expression under a key comes to a result while those under other keys wait for it. -/
def Settles (request : Request σ) (members : Members) (left : Nat) (before : List String) (key : String)
    (r : Except Fault Value) : Prop :=
  ∀ text c stack w, members.lookup key = some (.str text) →
    stack.map (·.path) = before.map (fun k => ⟨[k]⟩) → Unkept members w →
      (request.evaluate left ⟨⟨[key]⟩, text, c, []⟩ false).Comes stack w r

variable {before : List String} {key target : String}

theorem holds_eq (hs : stack.map (·.path) = before.map fun k => ⟨[k]⟩) (key : String) :
    stack.holds ⟨[key]⟩ = decide (key ∈ before) := by
  have hany : stack.holds ⟨[key]⟩ = (stack.map (·.path)).any (· == ⟨[key]⟩) := by
    rw [Stack.holds, List.any_map]
    rfl
  rw [hany, hs, List.any_map, Bool.eq_iff_iff]
  simp

section

variable (hook : request.options.onError = none)

include hook

theorem settles_cycle {front rest : List String} (hb : before = (front ++ key :: rest).reverse)
    (hk : key ∉ front) : Settles request members left before key
      (.error ⟨.cycle ((key :: rest ++ [key]).map fun k => ⟨[k]⟩), true⟩) := by
  intro text c stack w hl hs hw
  have hchain : stack.chainTo ⟨[key]⟩ = (key :: rest ++ [key]).map fun k => ⟨[k]⟩ := by
    have hpast : ∀ p ∈ front.map (fun k => (⟨[k]⟩ : Path)), (p != ⟨[key]⟩) = true := by
      intro p hp
      obtain ⟨k, hk', rfl⟩ := List.mem_map.1 hp
      have hne : k ≠ key := by
        rintro rfl
        exact hk hk'
      simpa using hne
    rw [Stack.chainTo, hs, hb, List.map_reverse, List.reverse_reverse, List.map_append,
      List.dropWhile_append_of_pos hpast]
    simp
  rw [← hchain]
  refine comes_cycle hook (hw.lookup _) ?_
  rw [holds_eq hs, hb]
  simp

theorem settles_tooDeep (hk : key ∉ before) : Settles request members 0 before key
    (.error ⟨.depth request.options.maxDepth ⟨[key]⟩, true⟩) := by
  intro text c stack w hl hs hw
  refine comes_tooDeep hook (hw.lookup _) ?_
  rw [holds_eq hs]
  exact decide_eq_false hk

/-- An expression settles as the name does that it is a reference to. -/
theorem settles_of_quote (hk : key ∉ before) (ht : target ≠ contextKey)
    (hq : Quotes members key target) {r : Except Fault Value}
    (hr : ∀ stack w, stack.map (·.path) = (key :: before).map (fun k => ⟨[k]⟩) → Unkept members w →
      (request.follow (request.evaluate left) (Plan.quote target
        (request.foundAt w ⟨[target]⟩))).Comes stack w r) :
    Settles request members (left + 1) before key (told r) := by
  intro text c stack w hl hs hw
  obtain ⟨-, text', hl', hp⟩ := hq
  obtain rfl : text = text' := by simpa [hl] using hl'
  refine comes_computed hook (hw.lookup _) ?_ ?_
  · rw [holds_eq hs]
    exact decide_eq_false hk
  · rw [Plan.render_reference ht hp]
    show (request.follow (request.evaluate left) (Plan.quote target _)).Comes _ _ r
    refine hr _ _ ?_ hw.begin
    rw [Stack.map_path_record, List.map_cons, List.map_cons, hs]
    rfl

end

theorem Unkept.foundAt (h : Unkept members w) (path : Path) : request.foundAt w path =
    .ofLocated (locate (.obj members) path (w.context.merge request.context)) := by
  rw [Request.foundAt, h.document]

section

variable (hook : request.options.onError = none) (graph : IsGraph members)

include hook graph

/-- A reference to a scalar settles as the scalar. -/
theorem settles_scalar (hk : key ∉ before) (hq : Quotes members key target) {found : String}
    (hs : standing? members target = some found) (hm : isMarked found = false) {value : Value}
    (hl : members.lookup found = some value) :
    Settles request members (left + 1) before key (.ok value) := by
  have ht := hq.plain graph
  refine settles_of_quote hook (r := .ok value) hk ht.ne_contextKey hq fun stack w _ hw => ?_
  obtain ⟨c, hlocate⟩ := graph.locate_static ht hs hm hl (w.context.merge request.context)
  have hflat := graph.depth_eq_zero hm hl
  have hfound : Found.ofLocated (.static ⟨[found]⟩ value c) = .scalar value := by
    cases value with
    | arr items => simp [Value.depth] at hflat
    | obj members => simp [Value.depth] at hflat
    | _ => rfl
  rw [hw.foundAt, hlocate, hfound]
  exact ⟨stack, w, rfl⟩

/-- A reference to a name that is missing settles as not found. That the name may be an index makes no
difference: the root is no array. -/
theorem settles_missing (hk : key ∉ before) (hq : Quotes members key target)
    (hs : standing? members target = none) : Settles request members (left + 1) before key
      (.error ⟨.notFound ⟨[target]⟩, true⟩) := by
  have ht := hq.plain graph
  refine settles_of_quote hook (r := .error (.new (.notFound ⟨[target]⟩))) hk ht.ne_contextKey hq
    fun stack w _ hw => ?_
  rw [hw.foundAt, graph.locate_missing ht hs]
  show (request.follow _ (Plan.answer ((Query.pastEnd ⟨[target]⟩ (Query.indexPlaces 0 [target])).bind
    _))).Comes stack w _
  cases hi : Numeral.index? target with
  | none =>
    have hplaces : Query.indexPlaces 0 [target] = [] := by simp [Query.indexPlaces, hi]
    rw [hplaces]
    exact ⟨stack, w, rfl⟩
  | some i =>
    have hplaces : Query.indexPlaces 0 [target] = [0] := by simp [Query.indexPlaces, hi]
    have hindex : (([target] : List String)[0]?).bind Numeral.index? = some i := hi
    have hpast : ∃ next, Query.pastEnd ⟨[target]⟩ [0] = .measure .root next ∧
        next none = .done (.ok false) := by
      simp only [Query.pastEnd, hindex]
      exact ⟨_, rfl, rfl⟩
    obtain ⟨next, hpast, hnone⟩ := hpast
    have hroot : request.foundAt w .root = .mapping
        (Found.slotsOf .root ((w.context.merge request.context).merge (Context.own (.obj members)))
          members) (Found.levelsOf (.obj members)) := by
      rw [hw.foundAt]
      rfl
    rw [hplaces, hpast]
    show (request.follow _ (.find .root _)).Comes stack w _
    unfold Task.Comes
    rw [follow_find, hroot]
    show ∃ stack' w', request.follow _ (Plan.answer ((next none).bind _)) _ w = .done (_, stack') w'
    rw [hnone]
    exact ⟨_, w, rfl⟩

/-- A reference to another expression settles as that one does. -/
theorem settles_next {key' : String} (hk : key ∉ before) (hn : LeadsOn members key key')
    {r : Except Fault Value} (htold : told r = r)
    (hr : Settles request members left (key :: before) key' r) :
    Settles request members (left + 1) before key r := by
  obtain ⟨target, hq, hs, hm⟩ := hn
  have ht := hq.plain graph
  rw [← htold]
  refine settles_of_quote hook hk ht.ne_contextKey hq fun stack w hstack hw => ?_
  obtain ⟨value, hl⟩ := Option.isSome_iff_exists.1 (isSome_of_standing? hs)
  obtain ⟨-, -, -, text, hl, -⟩ := graph.exists_quotes hm (isSome_of_standing? hs)
  rw [hw.foundAt, graph.locate_expression ht hs hm hl]
  obtain ⟨stack', w', hrun⟩ := hr text _ stack w hl hstack hw
  have hplan (site : Site) (he : site.rest = []) : Plan.quote target (.ofLocated (.expression site)) =
      .evaluate site false fun v => .done (.ok v) := by
    obtain ⟨path, text, c, rest⟩ := site
    obtain rfl : rest = [] := he
    rfl
  rw [hplan _ rfl, follow_evaluate]
  show ∃ stack' w', Step.bind _ _ = _
  rw [hrun]
  cases r with
  | ok v => exact ⟨stack', w', rfl⟩
  | error fault => exact ⟨stack', w', rfl⟩

/-- Along a walk the first expression settles as the last does while all others wait for it. -/
theorem settles_along {front : List String} {last first : String} {r : Except Fault Value}
    (htold : told r = r) (hchain : (front ++ [last]).IsChain (LeadsOn members)) (hnodup : front.Nodup)
    (hnew : ∀ k ∈ front, k ∉ before)
    (hr : Settles request members left (front.reverse ++ before) last r)
    (hfirst : (front ++ [last]).head? = some first) :
    Settles request members (left + front.length) before first r := by
  induction front generalizing before first with
  | nil =>
    obtain rfl : last = first := by simpa using hfirst
    exact hr
  | cons key front ih =>
    obtain rfl : key = first := by simpa using hfirst
    obtain ⟨next, rest, hnext⟩ := List.exists_cons_of_ne_nil
      (List.append_ne_nil_of_right_ne_nil front (List.cons_ne_nil last []))
    have hleads : LeadsOn members key next := by
      rw [List.cons_append, hnext, List.isChain_cons_cons] at hchain
      exact hchain.1
    obtain ⟨hkey, hfront⟩ := List.nodup_cons.1 hnodup
    have hbelow : Settles request members (left + front.length) (key :: before) next r := by
      apply ih hchain.tail hfront
      · intro k hk
        rw [List.mem_cons, not_or]
        constructor
        · rintro rfl
          exact hkey hk
        · exact hnew k (List.mem_cons_of_mem _ hk)
      · rwa [List.reverse_cons, List.append_assoc, List.singleton_append] at hr
      · rw [hnext]
        rfl
    exact settles_next hook graph (hnew key List.mem_cons_self) hleads htold hbelow

end

/-- What a read gives whose expression has come to a result. -/
def readResult : Except Fault Value → ReadResult
  | .ok v => .ok (some v)
  | .error fault => .error fault.error

section

variable (hook : request.options.onError = none) (graph : IsGraph members)

include hook graph

/-- The first expression of a walk settles as the last one does if it is new. -/
theorem settles_of_last {front : List String} {last start : String} {q : Except Fault Value}
    (htold : told q = q) (walk : IsWalk members start (front ++ [last]))
    (distinct : (front ++ [last]).Nodup)
    (hlast : last ∉ front.reverse → Settles request members left front.reverse last q) :
    Settles request members (left + front.length) [] start q := by
  obtain ⟨hfront, -, hne⟩ := List.nodup_append.1 distinct
  refine settles_along hook graph htold walk.2 hfront (fun _ _ => List.not_mem_nil) ?_ walk.1
  rw [List.append_nil]
  apply hlast
  rw [List.mem_reverse]
  exact fun hk => hne _ hk _ List.mem_cons_self rfl

/-- An expression settles as the walk from it ends. -/
theorem settles_of_walkEnds {start : String} {r : ReadResult}
    (h : WalkEnds members request.options.maxDepth start r) :
    ∃ q, readResult q = r ∧ Settles request members request.options.maxDepth [] start q := by
  cases h with
  | @scalar front last target found value walk short quotes stands static lookup =>
    rw [List.length_append, List.length_singleton] at short
    obtain ⟨left, hleft⟩ := Nat.exists_eq_add_of_le' short
    have hdistinct := nodup_of_stops walk.2 (quotes.not_leadsOn_of_static stands static)
    have hall : Settles request members (left + 1 + front.length) [] start (.ok value) :=
      settles_of_last hook graph rfl walk hdistinct fun hnew =>
        settles_scalar hook graph hnew quotes stands static lookup
    refine ⟨.ok value, rfl, ?_⟩
    rwa [hleft, Nat.add_comm front.length, ← Nat.add_assoc]
  | @missing front last target walk short quotes nowhere =>
    rw [List.length_append, List.length_singleton] at short
    obtain ⟨left, hleft⟩ := Nat.exists_eq_add_of_le' short
    have hdistinct := nodup_of_stops walk.2 (quotes.not_leadsOn_of_missing nowhere)
    have hall : Settles request members (left + 1 + front.length) [] start
        (.error ⟨.notFound ⟨[target]⟩, true⟩) :=
      settles_of_last hook graph rfl walk hdistinct fun hnew =>
        settles_missing hook graph hnew quotes nowhere
    refine ⟨.error ⟨.notFound ⟨[target]⟩, true⟩, rfl, ?_⟩
    rwa [hleft, Nat.add_comm front.length, ← Nat.add_assoc]
  | @cycle front rest key walk short distinct again =>
    obtain ⟨left, hleft⟩ := Nat.exists_eq_add_of_le' short
    have hkey : key ∉ front := by
      intro hk
      exact (List.nodup_append.1 distinct).2.2 _ hk _ List.mem_cons_self rfl
    have hend : Settles request members left ((front ++ key :: rest).reverse ++ []) key
        (.error ⟨.cycle ((key :: rest ++ [key]).map fun k => ⟨[k]⟩), true⟩) :=
      settles_cycle hook (List.append_nil _) hkey
    have hchain : (front ++ key :: rest ++ [key]).IsChain (LeadsOn members) := by
      refine List.isChain_append.2 ⟨walk.2, List.isChain_singleton key, ?_⟩
      rintro k hk k' ⟨⟩
      rw [List.getLast?_append_cons, List.getLast?_eq_some_getLast (List.cons_ne_nil key rest)] at hk
      cases hk
      exact again
    have hfirst : (front ++ key :: rest ++ [key]).head? = some start := by
      rw [List.head?_append, walk.1]
      rfl
    have hall := settles_along hook graph rfl hchain distinct (fun _ _ => List.not_mem_nil) hend hfirst
    exact ⟨_, rfl, hleft ▸ hall⟩
  | @tooDeep front last walk long distinct =>
    have hall : Settles request members (0 + front.length) [] start
        (.error ⟨.depth request.options.maxDepth ⟨[last]⟩, true⟩) :=
      settles_of_last hook graph rfl walk distinct fun hnew => settles_tooDeep hook hnew
    refine ⟨.error ⟨.depth request.options.maxDepth ⟨[last]⟩, true⟩, rfl, ?_⟩
    rwa [long, Nat.zero_add] at hall

end

/-- A read that runs into an expression of the root gives what the expression comes to. -/
theorem read_of_settles {path : Path} {key text : String} {c : Context} {q : Except Fault Value}
    (hw : Unkept members w) (hl : members.lookup key = some (.str text))
    (hlocate : locate w.document path (w.context.merge request.context) =
      .expression ⟨⟨[key]⟩, text, c, []⟩)
    (hq : Settles request members request.options.maxDepth [] key q) :
    ∃ w', request.read path false w = .done (readResult q) w' := by
  obtain ⟨stack', w', hrun⟩ := hq text c [] w hl rfl hw
  have hplan : Plan.descend false (Found.ofLocated (.expression ⟨⟨[key]⟩, text, c, []⟩)).levels
      (.ofLocated (.expression ⟨⟨[key]⟩, text, c, []⟩)) =
        .evaluate ⟨⟨[key]⟩, text, c, []⟩ false fun v => .done (.ok (some v)) := rfl
  have hfind : request.follow (request.evaluate request.options.maxDepth) (Plan.resolve false path) [] w =
      request.follow (request.evaluate request.options.maxDepth)
        (.evaluate ⟨⟨[key]⟩, text, c, []⟩ false fun v => .done (.ok (some v))) [] w := by
    rw [← hplan, ← hlocate]
    rfl
  refine ⟨w', ?_⟩
  rw [read, hfind, follow_evaluate]
  show Step.bind (Step.bind _ _) _ = _
  rw [hrun]
  cases q with
  | ok v =>
    show (Step.done (.ok ((some v).or request.fallback)) w' : Step σ ReadResult) = _
    rw [Option.some_or]
    rfl
  | error fault => rfl

end Request

namespace Tree

/-- In a graph of references, on a new tree without a hook, a read of an expression gives just what the
walk from the expression ends with. -/
theorem get_along_references {members : Members} (graph : IsGraph members) (options : Options σ)
    (hook : options.onError = none) (host : σ) {start segment text : String}
    (marked : isMarked start = true) (present : (members.lookup start).isSome)
    (leads : segment = start ∨ PlainName segment ∧ standing? members segment = some start)
    (names : Path.root.resolve text = .ok ⟨[segment]⟩) :
    ∃ r, ((ofDocument (.obj members) options host).get .root text .default).2 = some r ∧
      ∀ r', WalkEnds members options.maxDepth start r' ↔ r' = r := by
  let t := ofDocument (.obj members) options host
  obtain ⟨-, -, -, source, hl, -⟩ := graph.exists_quotes marked present
  have hlocate : ∃ c, locate (.obj members) ⟨[segment]⟩ (options.context.merge .empty) =
      .expression ⟨⟨[start]⟩, source, c, []⟩ := by
    rcases leads with rfl | ⟨hp, hs⟩
    · have hselect : enter? (.obj members) segment ((options.context.merge .empty).merge
          (Context.own (.obj members))) = some (segment, .str source) := by
        refine enter?_obj.2 ⟨?_, hl⟩
        rw [selectKey, if_pos (by rw [isExact, marked, Bool.or_true]), if_pos present]
      exact ⟨_, walk_cons_expression hselect marked []⟩
    · exact ⟨_, graph.locate_expression hp hs marked hl _⟩
  obtain ⟨c, hlocate⟩ := hlocate
  have hunkept : Request.Unkept members t.world := ⟨rfl, rfl⟩
  have hends (r : ReadResult) (h : WalkEnds members options.maxDepth start r) :
      (t.get .root text .default).2 = some r := by
    obtain ⟨q, rfl, hq⟩ := (t.request .default).settles_of_walkEnds hook graph h
    obtain ⟨w', hread⟩ := (t.request .default).read_of_settles hunkept hl hlocate hq
    obtain ⟨t', hget, -⟩ := get_of_done rfl rfl names hread
    rw [hget]
  obtain ⟨r, hr⟩ := exists_walkEnds graph marked present options.maxDepth
  refine ⟨r, hends r hr, fun r' => ?_⟩
  constructor
  · intro h
    exact Option.some.inj ((hends r' h).symm.trans (hends r hr))
  · rintro rfl
    exact hr

/-- Two expressions that wait for each other, and one that waits for both. -/
def ring : Members :=
  [(".a", .str "${b}"), (".b", .str "${c}"), (".c", .str "${b}")]

theorem plainName_ring {name : String} (h : name ∈ ["a", "b", "c"]) : PlainName name := by
  simp only [List.mem_cons, List.not_mem_nil, or_false] at h
  rcases h with rfl | rfl | rfl <;> exact ⟨by decide, by decide⟩

theorem isGraph_ring : IsGraph ring := by
  have hentry {name text target : String} (hn : name ∈ ["a", "b", "c"]) (ht : target ∈ ["a", "b", "c"])
      (hp : Template.parse text = .ok [.span (.ref 0 [.key target])]) :
      GraphEntry (mark name, .str text) :=
    .reference (plainName_ring hn) (plainName_ring ht) hp
  intro e he
  simp only [ring, List.mem_cons, List.not_mem_nil, or_false] at he
  rcases he with rfl | rfl | rfl
  · exact hentry (by decide : "a" ∈ _) (by decide : "b" ∈ _) (by cbv)
  · exact hentry (by decide : "b" ∈ _) (by decide : "c" ∈ _) (by cbv)
  · exact hentry (by decide : "c" ∈ _) (by decide : "b" ∈ _) (by cbv)

theorem leadsOn_ring (key text target : String) (hm : isMarked key = true)
    (hl : ring.lookup key = some (.str text))
    (hp : Template.parse text = .ok [.span (.ref 0 [.key target])])
    (hs : standing? ring target = some (mark target)) : LeadsOn ring key (mark target) :=
  ⟨target, ⟨hm, text, hl, hp⟩, hs, isMarked_mark target⟩

/-- The way into the ring is not told with the cycle. -/
theorem get_along_references_ring :
    ((ofDocument (.obj ring) (.default : Options Unit) ()).get .root "a" .default).2 =
      some (.error (.cycle [⟨[".b"]⟩, ⟨[".c"]⟩, ⟨[".b"]⟩])) := by
  have hab : LeadsOn ring ".a" ".b" := leadsOn_ring ".a" "${b}" "b" (by decide) rfl (by cbv) (by decide)
  have hbc : LeadsOn ring ".b" ".c" := leadsOn_ring ".b" "${c}" "c" (by decide) rfl (by cbv) (by decide)
  have hcb : LeadsOn ring ".c" ".b" := leadsOn_ring ".c" "${b}" "b" (by decide) rfl (by cbv) (by decide)
  have hwalk : IsWalk ring ".a" ([".a"] ++ ".b" :: [".c"]) :=
    ⟨rfl, .cons_cons hab (.cons_cons hbc (.singleton _))⟩
  have hends : WalkEnds ring 100 ".a" (.error (.cycle [⟨[".b"]⟩, ⟨[".c"]⟩, ⟨[".b"]⟩])) :=
    .cycle hwalk (by decide) (by decide) hcb
  obtain ⟨r, hget, hr⟩ := get_along_references isGraph_ring (.default : Options Unit) rfl ()
    (by decide : isMarked ".a" = true) (by decide)
    (.inr ⟨plainName_ring (by decide : "a" ∈ _), by decide⟩) (by cbv : Path.root.resolve "a" = _)
  rw [hget, (hr _).1 hends]

end Tree

end LiveDoc

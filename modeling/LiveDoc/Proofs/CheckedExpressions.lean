import LiveDoc.Cli.Commands
import LiveDoc.Proofs.Getting
import LiveDoc.Proofs.Memoization
import LiveDoc.Proofs.PathTexts
import LiveDoc.Proofs.Ranks

/-! # Expressions that are checked

A check goes through the expressions of a document and reads each by the text of its path. Whether such a
read comes to the expression is told by its keys: each has to name itself, and each has to win its slot on
the way. What is passed by is not evaluated, and nothing is said of it.
-/

namespace LiveDoc

variable {context : Context} {current document value : Value}
  {keys segments : List String} {segment key text : String} {path p : Path} {site : Site}

/-! ## Expressions below a value -/

/-- An expression lies below a value, at the end of the keys. -/
inductive Hosts : Value → List String → String → Prop where
  | here {members : Members} {key text : String} (found : members.lookup key = some (.str text))
      (marked : isMarked key = true) : Hosts (.obj members) [key] text
  | member {members : Members} {key text : String} {child : Value} {keys : List String}
      (found : members.lookup key = some child) (plain : isExpression key child = false)
      (below : Hosts child keys text) : Hosts (.obj members) (key :: keys) text
  | item {items : List Value} {i : Nat} {child : Value} {keys : List String} {text : String}
      (found : items[i]? = some child) (below : Hosts child keys text) :
      Hosts (.arr items) (toString i :: keys) text

theorem Hosts.ne_nil (h : Hosts current keys text) : keys ≠ [] := by
  cases h <;> exact List.cons_ne_nil _ _

/-- The paths that are listed below a value are those of the expressions in it. -/
theorem mem_expressionsAt_iff (hd : current.Distinct) : p ∈ expressionsAt path current ↔
    ∃ keys text, Hosts current keys text ∧ p = path.append keys := by
  induction hd generalizing path with
  | arr parts ih =>
    rw [expressionsAt, mem_expressionsOfItems_iff]
    constructor
    · rintro ⟨i, child, hi, hp⟩
      obtain ⟨keys, text, hh, hp⟩ := (ih child (List.mem_of_getElem? hi)).1 hp
      rw [Nat.zero_add, Path.child_append] at hp
      exact ⟨_, text, .item hi hh, hp⟩
    · rintro ⟨_, text, hh, hp⟩
      cases hh with
      | @item _ i child keys _ hi hh =>
        rw [← Path.child_append, ← Nat.zero_add i] at hp
        exact ⟨i, child, hi, (ih child (List.mem_of_getElem? hi)).2 ⟨keys, text, hh, hp⟩⟩
  | @obj members hnodup parts ih =>
    rw [expressionsAt, mem_expressionsOfMembers_iff]
    constructor
    · rintro ⟨key, child, hm, hp⟩
      have hl := Assoc.lookup_of_mem hnodup hm
      cases hx : isExpression key child with
      | true =>
        rw [hx, if_pos rfl, List.mem_singleton] at hp
        obtain ⟨hmarked, htext⟩ := Bool.and_eq_true_iff.1 hx
        cases child with
        | str text => exact ⟨[key], text, .here hl hmarked, hp⟩
        | _ => cases htext
      | false =>
        rw [hx, if_neg Bool.false_ne_true] at hp
        obtain ⟨keys, text, hh, hp⟩ := (ih _ hm).1 hp
        rw [Path.child_append] at hp
        exact ⟨_, text, .member hl hx hh, hp⟩
    · rintro ⟨_, text, hh, hp⟩
      cases hh with
      | @here _ key _ hl hmarked =>
        have hx : isExpression key (.str text) = true := Bool.and_eq_true_iff.2 ⟨hmarked, rfl⟩
        refine ⟨key, _, Assoc.mem_of_lookup hl, ?_⟩
        rw [hx, if_pos rfl, List.mem_singleton]
        exact hp
      | @member _ key _ child keys hl hx hh =>
        have hm := Assoc.mem_of_lookup hl
        rw [← Path.child_append] at hp
        refine ⟨key, child, hm, ?_⟩
        rw [hx, if_neg Bool.false_ne_true]
        exact (ih _ hm).2 ⟨keys, text, hh, hp⟩
  | _ => exact iff_of_false (by simp [expressionsAt]) (by rintro ⟨_, _, ⟨⟩, -⟩)

/-- Exactly the places of expressions are listed. -/
theorem mem_expressionPaths_iff (hd : document.Distinct) :
    p ∈ expressionPaths document ↔ ∃ text, Hosts document p.segments text := by
  rw [expressionPaths, mem_expressionsAt_iff hd]
  constructor
  · rintro ⟨keys, text, hh, rfl⟩
    exact ⟨text, hh⟩
  · rintro ⟨text, hh⟩
    exact ⟨p.segments, text, hh, rfl⟩

/-! ## The way of a read to an expression -/

theorem Path.append_inj (path : Path) {keys keys' : List String} :
    path.append keys = path.append keys' ↔ keys = keys' := by
  simp only [append, mk.injEq, List.append_cancel_left_eq]

/-- A direct read of the keys comes to the expression. -/
theorem Hosts.walk_of_direct (h : Hosts current keys text) (hd : Direct context current keys)
    (path : Path) : ∃ inner, walk current path context keys = .expression ⟨path.append keys, text, inner, []⟩ := by
  induction h generalizing context path with
  | here found marked =>
    obtain ⟨child, he, -⟩ := hd
    obtain rfl := Option.some.inj (found.symm.trans (enter?_child he).1)
    exact ⟨context, walk_cons_expression he marked []⟩
  | member found plain _ ih =>
    obtain ⟨child, he, hd⟩ := hd
    obtain rfl := Option.some.inj (found.symm.trans (enter?_child he).1)
    rw [walk_cons_static he plain, ← Path.child_append]
    exact ih hd _
  | item found _ ih =>
    obtain ⟨child, he, hd⟩ := hd
    obtain ⟨j, hj, hi⟩ := Option.bind_eq_some_iff.1 (enter?_child he).1
    obtain rfl := Numeral.eq_of_index?_toString hj
    obtain rfl := Option.some.inj (found.symm.trans hi)
    have hmarked := (isExact_eq_false (isExact_of_index? hj)).2
    rw [walk_cons_static he (isExpression_of_not_marked hmarked _), ← Path.child_append]
    exact ih hd _

/-- A read of the keys that comes to an expression at them is direct. -/
theorem direct_of_walk (h : walk current path context keys = .expression site)
    (hp : site.path = path.append keys) : Direct context current keys := by
  induction keys generalizing current path context with
  | nil => trivial
  | cons k rest ih =>
    rcases walk_cons_cases current context k with he | ⟨key, text, he, hk⟩ | ⟨key, child, he, hx⟩
    · rw [walk_cons_none he] at h
      cases h
    · rw [walk_cons_expression he hk] at h
      cases h
      obtain ⟨rfl, rfl⟩ := List.cons.inj ((Path.append_inj path).1 hp)
      exact ⟨_, he, trivial⟩
    · rw [walk_cons_static he hx] at h
      obtain ⟨keys, hkeys, -⟩ := walk_expression h
      rw [hkeys, Path.child_append] at hp
      obtain ⟨rfl, rfl⟩ := List.cons.inj ((Path.append_inj path).1 hp)
      exact ⟨child, he, ih h hkeys⟩

theorem picks_of_enter? (h : enter? current segment context = some (key, value)) :
    Path.Picks segment key := by
  cases current with
  | obj members =>
    have hs := (enter?_obj.1 h).1
    cases hx : isExact segment with
    | true =>
      rw [selectKey, hx, if_pos rfl] at hs
      split at hs
      · exact .inl (Option.some.inj hs)
      · cases hs
    | false =>
      rw [selectKey, hx, if_neg Bool.false_ne_true] at hs
      exact .inr ⟨hx, (resolveVariant_eq_some hs).2⟩
  | _ =>
    simp only [enter?, Option.map_eq_some_iff, Prod.mk.injEq] at h
    obtain ⟨_, -, hk, -⟩ := h
    exact .inl hk

/-- The segments that a read has followed to an expression pick the keys of its place. -/
theorem picks_of_walk (h : walk current path context segments = .expression site) :
    ∃ front keys, segments = front ++ site.rest ∧ site.path = path.append keys ∧
      List.Forall₂ Path.Picks front keys := by
  induction segments generalizing current path context with
  | nil => cases h
  | cons segment rest ih =>
    rcases walk_cons_cases current context segment with he | ⟨key, text, he, hk⟩ | ⟨key, child, he, hx⟩
    · rw [walk_cons_none he] at h
      cases h
    · rw [walk_cons_expression he hk] at h
      cases h
      exact ⟨[segment], [key], rfl, rfl, .cons (picks_of_enter? he) .nil⟩
    · rw [walk_cons_static he hx] at h
      obtain ⟨front, keys, rfl, hp, hpicks⟩ := ih h
      rw [Path.child_append] at hp
      exact ⟨segment :: front, key :: keys, rfl, hp, .cons (picks_of_enter? he) hpicks⟩

/-- The text of a path leads to the expression that lies at the path itself, and to all of its value. -/
structure Reaches (document : Value) (context : Context) (p : Path) (site : Site) : Prop where
  path : site.path = p
  text : document.descend? p.segments = some (.str site.text)
  whole : site.rest = []
  located : ∃ q, Path.root.resolve p.text = .ok q ∧ locate document q context = .expression site

/-- Where the text of its path climbs nowhere, an expression is reached exactly if each of its keys names
itself and is picked by its own name on the way. -/
theorem reaches_iff (hd : document.Distinct) (hp : p ∈ expressionPaths document)
    (hc : ¬ Path.Climbs p.text) : (∃ site, Reaches document context p site) ↔
      (∀ key ∈ p.segments, Path.NamesItself key) ∧
        Direct (context.merge (Context.own document)) document p.segments := by
  obtain ⟨text, hh⟩ := (mem_expressionPaths_iff hd).1 hp
  constructor
  · rintro ⟨site, hpath, -, -, q, hq, hl⟩
    obtain ⟨front, keys, hsegments, hkeys, hpicks⟩ := picks_of_walk hl
    obtain rfl : p = ⟨keys⟩ := hpath.symm.trans hkeys
    have hnames := Path.namesItself_of_picks hc hq hh.ne_nil hsegments hpicks
    obtain rfl : (⟨keys⟩ : Path) = q := Except.ok.inj ((Path.resolve_text_iff.2 hnames).symm.trans hq)
    exact ⟨hnames, direct_of_walk hl hpath⟩
  · rintro ⟨hnames, hdirect⟩
    obtain ⟨inner, hl⟩ := hh.walk_of_direct hdirect .root
    obtain ⟨keys, hkeys, -, hdescend, -⟩ := walk_expression hl
    obtain rfl : p.segments = keys := (Path.append_inj .root).1 hkeys
    exact ⟨_, rfl, hdescend, rfl, p, Path.resolve_text_iff.2 hnames, hl⟩

namespace Cli

variable {c : Command} {t t' : Sheet} {paths front : List Path}

/-! ## A whole check -/

/-- The tree of a check after it has read some of the expressions. -/
def afterReads (c : Command) (paths : List Path) (t : Sheet) : Sheet :=
  paths.foldl (fun t p => (evaluate t c p.text).1) t

theorem failuresOf_eq_nil_iff : failuresOf c paths t = [] ↔ ∀ front p back, paths = front ++ p :: back →
    ∀ e, (evaluate (afterReads c front t) c p.text).2 ≠ some (.error e) := by
  induction paths generalizing t with
  | nil => simp [failuresOf]
  | cons q rest ih =>
    have hcons : failuresOf c (q :: rest) t = [] ↔
        (∀ e, (evaluate t c q.text).2 ≠ some (.error e)) ∧
          failuresOf c rest (evaluate t c q.text).1 = [] := by
      simp only [failuresOf]
      split
      · next e he => simp [he]
      · next hne => simpa using fun _ => hne
    rw [hcons, ih]
    constructor
    · rintro ⟨hfirst, hrest⟩ front p back h
      cases front with
      | nil =>
        obtain ⟨rfl, -⟩ := List.cons.inj h
        exact hfirst
      | cons q' front =>
        obtain ⟨rfl, hback⟩ := List.cons.inj h
        exact hrest front p back hback
    · intro h
      constructor
      · exact h [] q rest rfl
      · rintro front p back rfl
        exact h (q :: front) p back rfl

theorem runCheck_exit_iff :
    (runCheck t c).exit = Answer.success ↔ failuresOf c t.expressions t = [] := by
  show (if (failuresOf c t.expressions t).isEmpty then Answer.success else Answer.dataError) = _ ↔ _
  rw [← List.isEmpty_iff]
  cases (failuresOf c t.expressions t).isEmpty <;> simp [Answer.success, Answer.dataError]

/-- A check of one expression exits well if its read does not fail. -/
theorem runCheck_single (hp : t.expressions = [p]) {v : Option Value}
    (hv : (evaluate t c p.text).2 = some (.ok v)) : (runCheck t c).exit = Answer.success := by
  rw [runCheck_exit_iff, hp]
  simp only [failuresOf, hv]

/-- The tree of a command while it reads one expression after the other. -/
structure Ready (document : Value) (t : Sheet) : Prop where
  options : t.options = .default
  document : t.world.document = document
  context : t.world.context = (Options.default : Options Unit).context
  idle : t.inflight = []
  timely : t.world.cache.Timely

theorem ready_ofDocument (document : Value) : Ready document (.ofDocument document .default ()) :=
  ⟨rfl, rfl, rfl, rfl, Cache.timely_empty⟩

namespace Ready

/-- A read of a command ends with a result: there are no resolvers to wait for. -/
theorem evaluate_ends (h : Ready document t) (c : Command) (text : String) :
    ∃ r, (evaluate t c text).2 = some r := by
  unfold evaluate
  cases hp : Path.root.resolve text with
  | error e =>
    simp only [Tree.get, Tree.start, hp]
    exact ⟨_, congrArg Prod.snd (Tree.settle_of_result rfl)⟩
  | ok path =>
    have hn (name : String) : t.options.registry.get? name = none := by
      rw [h.options]
      rfl
    obtain ⟨r, w, hread⟩ : ∃ r w, (t.request ⟨c.fresh, none, some (contextOf c.context)⟩).read path
        c.fresh t.world = .done r w := Request.read_at_once hn path c.fresh t.world
    obtain ⟨t', hget, -⟩ := Tree.get_of_unjoined (fun _ => by rw [h.idle, List.lookup_nil]) hp hread
    exact ⟨r, congrArg Prod.snd hget⟩

theorem gives (h : Ready document t) (c : Command) (text : String) :
    ∃ r, t.Gives .root text ⟨c.fresh, none, some (contextOf c.context)⟩ r (evaluate t c text).1 ∧
      (evaluate t c text).2 = some r := by
  obtain ⟨r, hr⟩ := h.evaluate_ends c text
  exact ⟨r, Tree.gives_of_get (Prod.ext rfl hr), hr⟩

/-- A read leaves the tree ready for the next one. -/
theorem evaluate (h : Ready document t) (c : Command) (text : String) :
    Ready document (evaluate t c text).1 := by
  obtain ⟨r, hgives, -⟩ := h.gives c text
  rcases hgives.cases h.idle with ⟨-, -, -, ht⟩ | ⟨path, -, hends, hidle, hoptions⟩
  · rwa [ht]
  · obtain ⟨hdocument, hcontext, htimely⟩ := Request.read_steady hends
    exact ⟨hoptions.trans h.options, hdocument.trans h.document, hcontext.trans h.context, hidle,
      htimely h.timely⟩

theorem afterReads (h : Ready document t) (c : Command) (paths : List Path) :
    Ready document (afterReads c paths t) := by
  induction paths generalizing t with
  | nil => exact h
  | cons p rest ih => exact ih (h.evaluate c p.text)

/-- A read that reaches an expression and does not fail gives its result, which is kept. -/
theorem kept_of_reaches (h : Ready document t)
    (hr : Reaches document (t.world.context.merge (contextOf c.context)) p site) {v : Option Value}
    (hv : (Cli.evaluate t c p.text).2 = some (.ok v)) :
    ∃ entry, (Cli.evaluate t c p.text).1.world.cache.lookup (Request.keyOf site) = some entry ∧
      v = some entry.value := by
  obtain ⟨r, hgives, hr'⟩ := h.gives c p.text
  obtain rfl : r = .ok v := Option.some.inj (hr'.symm.trans hv)
  obtain ⟨q, hq, hl⟩ := hr.located
  obtain ⟨hends, -⟩ := hgives.ends hq fun _ => by rw [h.idle, List.lookup_nil]
  rw [← h.document] at hl
  obtain ⟨entry, hentry, hvalue⟩ := Request.known_of_read (by rw [Tree.request, h.options]; rfl) h.timely
    hl hends
  rw [hr.whole] at hvalue
  exact ⟨entry, hentry, hvalue.symm⟩

end Ready

/-- A check exits well exactly if no read of it fails. Such a read reaches the expression that it was meant
for, where the text of its path climbs nowhere, exactly if each of its keys names itself and is picked by its
own name on the way; and if it does, the expression is evaluated and its result kept. -/
theorem check_reaches (hd : document.Distinct) (c : Command) :
    let t : Sheet := .ofDocument document .default ()
    let context := t.world.context.merge (contextOf c.context)
    ((runCheck t c).exit = Answer.success ↔ ∀ front p back, t.expressions = front ++ p :: back →
      ∃ v, (evaluate (afterReads c front t) c p.text).2 = some (.ok v)) ∧
    ∀ front p back, t.expressions = front ++ p :: back →
      (¬ Path.Climbs p.text → ((∃ site, Reaches document context p site) ↔
        (∀ key ∈ p.segments, Path.NamesItself key) ∧
          Direct (context.merge (Context.own document)) document p.segments)) ∧
      ∀ site, Reaches document context p site → (runCheck t c).exit = Answer.success →
        ∃ entry, (afterReads c (front ++ [p]) t).world.cache.lookup (Request.keyOf site) = some entry ∧
          (evaluate (afterReads c front t) c p.text).2 = some (.ok (some entry.value)) := by
  intro t context
  have hready := ready_ofDocument document
  have hexit : (runCheck t c).exit = Answer.success ↔ ∀ front p back, t.expressions = front ++ p :: back →
      ∃ v, (evaluate (afterReads c front t) c p.text).2 = some (.ok v) := by
    rw [runCheck_exit_iff, failuresOf_eq_nil_iff]
    refine forall_congr' fun front => forall_congr' fun p => forall_congr' fun back => imp_congr_right fun _ => ?_
    obtain ⟨r, hr⟩ := (hready.afterReads c front).evaluate_ends c p.text
    rw [hr]
    cases r <;> simp
  refine ⟨hexit, fun front p back hpaths => ⟨fun hc => ?_, fun site hreaches hok => ?_⟩⟩
  · have hp : p ∈ t.expressions := by
      rw [hpaths]
      exact List.mem_append_right _ List.mem_cons_self
    exact reaches_iff hd hp hc
  · have hbefore := hready.afterReads c front
    obtain ⟨v, hv⟩ := hexit.1 hok front p back hpaths
    have hcontext : (afterReads c front t).world.context = t.world.context :=
      hbefore.context.trans hready.context.symm
    obtain ⟨entry, hentry, rfl⟩ := hbefore.kept_of_reaches (by rwa [hcontext]) hv
    have hafter : afterReads c (front ++ [p]) t = (evaluate (afterReads c front t) c p.text).1 := by
      rw [afterReads, List.foldl_append]
      rfl
    exact ⟨entry, hafter ▸ hentry, hv⟩

/-- A menu with an expression for its title, beside a Spanish menu without a title. -/
def titledMenu (title : String) : Value :=
  .obj [("menu", .obj [(".title", .str title)]), ("menu:es", .obj [])]

def sheet (document : Value) : Sheet :=
  .ofDocument document .default ()

def checking (context : List (String × String)) : Command :=
  ⟨.check, "doc.json", "", context, false, false⟩

/-- Without a language the check of the title reaches it, and the result is kept. -/
theorem menu_title_checked : ∃ site entry,
    Reaches (titledMenu "${1}") (contextOf []) ⟨["menu", ".title"]⟩ site ∧
      (afterReads (checking []) [⟨["menu", ".title"]⟩] (sheet (titledMenu "${1}"))).world.cache.lookup
        (Request.keyOf site) = some entry ∧ entry.value = .num (.int 1) := by
  have hd : (titledMenu "${1}").Distinct := by simp [titledMenu, Value.Distinct]
  have hread : (evaluate (sheet (titledMenu "${1}")) (checking []) "menu..title").2 =
      some (.ok (some (.num (.int 1)))) := by cbv
  have hpaths : (sheet (titledMenu "${1}")).expressions = [⟨["menu", ".title"]⟩] := rfl
  have hexit := runCheck_single hpaths hread
  have hclimb : ¬ Path.Climbs (Path.text ⟨["menu", ".title"]⟩) := by
    rintro ⟨r, hr, hm⟩
    have hparse : Path.parse? "menu..title" = some ⟨["menu", ".title"]⟩ := by cbv
    obtain rfl : ⟨["menu", ".title"]⟩ = r := Option.some.inj (hparse.symm.trans hr)
    revert hm
    decide
  have hdirect : Direct ((contextOf []).merge (Context.own (titledMenu "${1}"))) (titledMenu "${1}")
      ["menu", ".title"] := ⟨_, by cbv, _, by cbv, trivial⟩
  obtain ⟨hreaches, hkept⟩ := (check_reaches hd (checking [])).2 [] ⟨["menu", ".title"]⟩ [] hpaths
  obtain ⟨site, hsite⟩ := (hreaches hclimb).2 ⟨by decide, hdirect⟩
  obtain ⟨entry, hentry, hvalue⟩ := hkept site hsite hexit
  have hone : entry.value = .num (.int 1) := by simpa using hvalue.symm.trans hread
  exact ⟨site, entry, hsite, hentry, hone⟩

/-- An expression under a key with a dot inside is passed by, and so is one in a mapping that loses its slot.
Both would fail, but the check reports nothing. -/
theorem failing_expressions_passed_by :
    ((runCheck (sheet (.obj [(".a.b", .str "${x}")])) (checking [])).exit = Answer.success ∧
      (sheet (.obj [(".a.b", .str "${x}")])).expressions = [⟨[".a.b"]⟩] ∧
      ((sheet (.obj [(".a.b", .str "${x}")])).getAt ⟨[".a.b"]⟩ .default).2 =
        some (.error (.notFound ⟨["x"]⟩))) ∧
    (runCheck (sheet (titledMenu "${x}")) (checking [("lang", "es")])).exit = Answer.success ∧
      (sheet (titledMenu "${x}")).expressions = [⟨["menu", ".title"]⟩] ∧
      locate (titledMenu "${x}") ⟨["menu", ".title"]⟩ (contextOf [("lang", "es")]) = .missing := by
  have hdotted : (sheet (.obj [(".a.b", .str "${x}")])).expressions = [⟨[".a.b"]⟩] := rfl
  have htitle : (sheet (titledMenu "${x}")).expressions = [⟨["menu", ".title"]⟩] := rfl
  refine ⟨⟨runCheck_single hdotted (v := none) ?_, hdotted, ?_⟩,
    runCheck_single htitle (v := none) ?_, htitle, ?_⟩
  · cbv
  · cbv
  · cbv
  · cbv

end Cli

end LiveDoc

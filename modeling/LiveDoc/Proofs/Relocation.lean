import LiveDoc.Proofs.Accounted
import LiveDoc.Proofs.Selection

/-! # Walking to the same place again

The place of a located expression, given key by key, leads to it again, under the same context. So
what a walk finds at a place does not depend on the names by which it came there.
-/

namespace LiveDoc

section Enter

variable {current value : Value} {segment key : String} {context : Context}

theorem enter?_obj {members : Members} :
    enter? (.obj members) segment context = some (key, value) ↔
      selectKey members segment context = some key ∧ members.lookup key = some value := by
  simp only [enter?, Option.bind_eq_some_iff, Option.map_eq_some_iff, Prod.mk.injEq]
  constructor
  · rintro ⟨key', hs, value', hl, rfl, rfl⟩
    exact ⟨hs, hl⟩
  · rintro ⟨hs, hl⟩
    exact ⟨key, hs, value, hl, rfl, rfl⟩

theorem enter?_obj_eq_none_iff {members : Members} :
    enter? (.obj members) segment context = none ↔ selectKey members segment context = none := by
  rw [Option.eq_none_iff_forall_ne_some, Option.eq_none_iff_forall_ne_some]
  constructor
  · intro h key hk
    obtain ⟨v, hv⟩ := Option.isSome_iff_exists.1 (selectKey_eq_some hk).1
    exact h _ (enter?_obj.2 ⟨hk, hv⟩)
  · rintro h ⟨key, v⟩ he
    exact h key (enter?_obj.1 he).1

theorem enter?_child (h : enter? current segment context = some (key, value)) :
    current.child? key = some value ∧ enter? current key context = some (key, value) ∧
      slotName key = slotName segment := by
  cases current with
  | obj members =>
    obtain ⟨hs, hl⟩ := enter?_obj.1 h
    exact ⟨hl, enter?_obj.2 ⟨selectKey_self hs, hl⟩, (selectKey_eq_some hs).2⟩
  | _ =>
    have hk : segment = key := by
      simp only [enter?, Option.map_eq_some_iff, Prod.mk.injEq] at h
      obtain ⟨_, -, hk, -⟩ := h
      exact hk
    subst hk
    refine ⟨?_, h, rfl⟩
    simp only [enter?, Option.map_eq_some_iff, Prod.mk.injEq] at h
    obtain ⟨v, hv, -, rfl⟩ := h
    exact hv

end Enter

/-- A value under a marked key is an expression if it is a text. -/
def isExpression (key : String) (value : Value) : Bool :=
  isMarked key && value.string?.isSome

theorem isExpression_of_not_marked {key : String} (h : isMarked key = false) (value : Value) :
    isExpression key value = false := by
  rw [isExpression, h, Bool.false_and]

theorem walk_cons_expression {current : Value} {path : Path} {context : Context}
    {segment key text : String} (h : enter? current segment context = some (key, .str text))
    (hk : isMarked key = true) (rest : List String) :
    walk current path context (segment :: rest) = .expression ⟨path.child key, text, context, rest⟩ := by
  simp only [walk, h, hk]

theorem walk_cons_static {current value : Value} {path : Path} {context : Context}
    {segment key : String} (h : enter? current segment context = some (key, value))
    (hk : isExpression key value = false) (rest : List String) :
    walk current path context (segment :: rest) =
      walk value (path.child key) (context.merge (Context.own value)) rest := by
  simp only [walk, h]
  split
  · next hm => simp [isExpression, hm, Value.string?] at hk
  · rfl

/-- The ways on from a value: nowhere, to an expression, or further down. -/
theorem walk_cons_cases (current : Value) (context : Context) (segment : String) :
    enter? current segment context = none ∨
      (∃ key text, enter? current segment context = some (key, .str text) ∧ isMarked key = true) ∨
      ∃ key value, enter? current segment context = some (key, value) ∧
        isExpression key value = false := by
  cases he : enter? current segment context with
  | none => exact .inl rfl
  | some pair =>
    obtain ⟨key, value⟩ := pair
    cases hx : isExpression key value with
    | false => exact .inr (.inr ⟨key, value, rfl, hx⟩)
    | true =>
      simp only [isExpression, Bool.and_eq_true] at hx
      cases value with
      | str text => exact .inr (.inl ⟨key, text, rfl, hx.1⟩)
      | _ => simp [Value.string?] at hx

theorem walk_cons_none {current : Value} {path : Path} {context : Context} {segment : String}
    (h : enter? current segment context = none) (rest : List String) :
    walk current path context (segment :: rest) = .missing := by
  simp only [walk, h]

/-- Go on from where a walk has led, down into what an expression gives if it led to one. -/
def Located.further : Located → List String → Located
  | .missing, _ => .missing
  | .static path value context, more => walk value path context more
  | .expression site, more => .expression { site with rest := site.rest ++ more }

theorem walk_append (current : Value) (path : Path) (context : Context) (segments more : List String) :
    walk current path context (segments ++ more) =
      (walk current path context segments).further more := by
  induction segments generalizing current path context with
  | nil => rfl
  | cons segment rest ih =>
    rw [List.cons_append]
    rcases walk_cons_cases current context segment with he | ⟨key, text, he, hk⟩ | ⟨key, value, he, hx⟩
    · rw [walk_cons_none he, walk_cons_none he, Located.further]
    · rw [walk_cons_expression he hk, walk_cons_expression he hk, Located.further]
    · rw [walk_cons_static he hx, walk_cons_static he hx, ih]

theorem locate_append (document : Value) (path : Path) (context : Context) (more : List String) :
    locate document (path.append more) context = (locate document path context).further more :=
  walk_append ..

/-- The place of a value leads to it, and on from there. -/
theorem walk_static {current value : Value} {path place : Path} {context context' : Context}
    {segments : List String} (h : walk current path context segments = .static place value context') :
    ∃ keys, place = path.append keys ∧
      ∀ more, walk current path context (keys ++ more) = walk value place context' more := by
  induction segments generalizing current path context with
  | nil =>
    cases h
    exact ⟨[], by simp [Path.append], fun more => rfl⟩
  | cons segment rest ih =>
    rcases walk_cons_cases current context segment with he | ⟨key, text, he, hk⟩ | ⟨key, child, he, hx⟩
    · rw [walk_cons_none he] at h
      cases h
    · rw [walk_cons_expression he hk] at h
      cases h
    · rw [walk_cons_static he hx] at h
      obtain ⟨keys, hp, hw⟩ := ih h
      refine ⟨key :: keys, by rw [hp]; simp [Path.append, Path.child], fun more => ?_⟩
      rw [List.cons_append, walk_cons_static (enter?_child he).2.1 hx, hw]

theorem locate_place {document value : Value} {path place : Path} {context context' : Context}
    (h : locate document path context = .static place value context') (more : List String) :
    locate document (place.append more) context = walk value place context' more := by
  obtain ⟨keys, rfl, hw⟩ := walk_static h
  rw [← hw]
  simp [locate, Path.append, Path.root]

/-- A located expression lies where its place says, and its place leads to it. -/
theorem walk_expression {current : Value} {path : Path} {context : Context}
    {segments : List String} {site : Site}
    (h : walk current path context segments = .expression site) :
    ∃ keys, site.path = path.append keys ∧ keys ≠ [] ∧
      current.descend? keys = some (.str site.text) ∧
      (∀ more, walk current path context (keys ++ more) = .expression { site with rest := more }) ∧
      keys.map slotName <+: segments.map slotName := by
  induction segments generalizing current path context with
  | nil => cases h
  | cons segment rest ih =>
    rcases walk_cons_cases current context segment with he | ⟨key, text, he, hk⟩ |
      ⟨key, value, he, hx⟩
    · simp [walk, he] at h
    · rw [walk_cons_expression he hk] at h
      cases h
      obtain ⟨hc, hself, hslot⟩ := enter?_child he
      refine ⟨[key], rfl, List.cons_ne_nil _ _, by simp [Value.descend?, hc],
        fun more => walk_cons_expression hself hk more, ?_⟩
      simp [hslot]
    · rw [walk_cons_static he hx] at h
      obtain ⟨hc, hself, hslot⟩ := enter?_child he
      obtain ⟨keys, hp, -, hd, hw, hl⟩ := ih h
      refine ⟨key :: keys, by rw [hp]; simp [Path.append, Path.child], List.cons_ne_nil _ _,
        by simp [Value.descend?, hc, hd], fun more => ?_, ?_⟩
      · rw [List.cons_append, walk_cons_static hself hx, hw]
      · rw [List.map_cons, List.map_cons, hslot]
        exact List.cons_prefix_cons.2 ⟨rfl, hl⟩

/-- The place of a located expression leads to it. -/
theorem locate_site {document : Value} {path : Path} {context : Context} {site : Site}
    (h : locate document path context = .expression site) :
    document.descend? site.path.segments = some (.str site.text) ∧
      locate document site.path context = .expression { site with rest := [] } ∧
      site.path.logical.segments <+: path.logical.segments := by
  obtain ⟨keys, hp, -, hd, hw, hl⟩ := walk_expression h
  have hkeys : site.path.segments = keys := by rw [hp]; simp [Path.append, Path.root]
  refine ⟨by rw [hkeys, hd], ?_, ?_⟩
  · rw [locate, hkeys, ← List.append_nil keys, hw]
  · rw [Path.logical, hkeys]
    exact hl

/-- What taking up declared contexts preserves holds of the context of a located expression. -/
theorem walk_context {P : Context → Prop} {current : Value} {path : Path} {context : Context}
    {segments : List String} {site : Site}
    (hP : ∀ keys child c, current.descend? keys = some child → P c →
      P (c.merge (Context.own child))) (hc : P context)
    (h : walk current path context segments = .expression site) : P site.context := by
  induction segments generalizing current path context with
  | nil => cases h
  | cons segment rest ih =>
    rcases walk_cons_cases current context segment with he | ⟨key, text, he, hk⟩ |
      ⟨key, value, he, hx⟩
    · simp [walk, he] at h
    · rw [walk_cons_expression he hk] at h
      cases h
      exact hc
    · rw [walk_cons_static he hx] at h
      have hchild := (enter?_child he).1
      have hd (keys : List String) : current.descend? (key :: keys) = value.descend? keys := by
        rw [Value.descend?, hchild, Option.bind_some]
      exact ih (fun keys child c hk => hP (key :: keys) child c ((hd keys).trans hk))
        (hP [key] value context (hd []) hc) h

theorem locate_context {P : Context → Prop} {document : Value} {path : Path} {context : Context}
    {site : Site}
    (hP : ∀ keys child c, document.descend? keys = some child → P c →
      P (c.merge (Context.own child))) (hc : P context)
    (h : locate document path context = .expression site) : P site.context :=
  walk_context hP (hP [] document context rfl hc) h

/-- The setting finds what walks in a document lead to. -/
def Setting.FindsIn (S : Setting) (document : Value) (context : Context) : Prop :=
  ∀ path, S.find path = .ofLocated (locate document path context)

namespace Request

variable {σ : Type} {request : Request σ} {f : String → List Value → Except String Value}
  {w : World σ}

theorem setting_findsIn :
    (request.setting f w).FindsIn w.document (w.context.merge request.context) :=
  fun _ => rfl

theorem setting_locates {site : Site} : (request.setting f w).Locates site ↔
    ∃ path, locate w.document path (w.context.merge request.context) = .expression site := by
  refine exists_congr fun path => ?_
  show Found.ofLocated _ = _ ↔ _
  cases hl : locate w.document path (w.context.merge request.context) with
  | missing => simp [Found.ofLocated]
  | expression site' => simp [Found.ofLocated]
  | static path value context => cases value <;> simp [Found.ofLocated]

theorem setting_coherent : (request.setting f w).Coherent := by
  intro site site' hs hs' hp
  obtain ⟨path, hl⟩ := setting_locates.1 hs
  obtain ⟨path', hl'⟩ := setting_locates.1 hs'
  have h := (locate_site hl).2.1
  rw [hp, (locate_site hl').2.1, Located.expression.injEq] at h
  have htext := congrArg Site.text h.symm
  have hcontext := congrArg Site.context h.symm
  exact ⟨hp, htext, hcontext⟩

end Request

end LiveDoc

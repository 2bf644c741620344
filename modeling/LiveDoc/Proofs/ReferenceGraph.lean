import LiveDoc.Proofs.Relocation
import LiveDoc.Proofs.Spelling
import Mathlib.Data.List.Chain

/-! # Graphs of references

A flat document in which every expression is one reference to a sibling name is a graph: an expression
leads on to the key that its name stands for. A walk along it comes to a scalar, to a missing name, to an
expression that it has passed, or to the limit.
-/

namespace LiveDoc

/-- A name without marker and tags, other than that of the context. -/
structure PlainName (name : String) : Prop where
  bare : isExact name = false
  ne_contextKey : name ≠ contextKey

/-- A plain name has a scalar, and a marked one a reference to a plain name. -/
inductive GraphEntry : String × Value → Prop where
  | scalar {name : String} {value : Value} (plain : PlainName name) (flat : value.depth = 0) :
    GraphEntry (name, value)
  | reference {name text target : String} (plain : PlainName name) (known : PlainName target)
    (quotes : Template.parse text = .ok [.span (.ref 0 [.key target])]) :
    GraphEntry (mark name, .str text)

def IsGraph (members : Members) : Prop :=
  ∀ e ∈ members, GraphEntry e

/-- The key that a name stands for: the name itself or the name with a marker, the smaller one where
there are both. -/
def standing? (members : Members) (name : String) : Option String :=
  match (members.lookup name).isSome, (members.lookup (mark name)).isSome with
  | true, true => some (if compare name (mark name) = .gt then mark name else name)
  | true, false => some name
  | false, true => some (mark name)
  | false, false => none

/-- The expression under a key is one reference to a name. -/
def Quotes (members : Members) (key target : String) : Prop :=
  isMarked key = true ∧ ∃ text, members.lookup key = some (.str text) ∧
    Template.parse text = .ok [.span (.ref 0 [.key target])]

/-- An expression refers to another. -/
def LeadsOn (members : Members) (key key' : String) : Prop :=
  ∃ target, Quotes members key target ∧ standing? members target = some key' ∧ isMarked key' = true

/-- Expressions one after the other, each of which refers to the next. -/
def IsWalk (members : Members) (start : String) (keys : List String) : Prop :=
  keys.head? = some start ∧ keys.IsChain (LeadsOn members)

/-- What the walk from an expression ends with under a limit. -/
inductive WalkEnds (members : Members) (limit : Nat) (start : String) : ReadResult → Prop where
  /-- The last of at most so many expressions refers to a scalar. -/
  | scalar {front : List String} {last target key : String} {value : Value}
    (walk : IsWalk members start (front ++ [last])) (short : (front ++ [last]).length ≤ limit)
    (quotes : Quotes members last target) (stands : standing? members target = some key)
    (static : isMarked key = false) (found : members.lookup key = some value) :
    WalkEnds members limit start (.ok (some value))
  /-- The last of at most so many expressions refers to a name that is missing. -/
  | missing {front : List String} {last target : String}
    (walk : IsWalk members start (front ++ [last])) (short : (front ++ [last]).length ≤ limit)
    (quotes : Quotes members last target) (nowhere : standing? members target = none) :
    WalkEnds members limit start (.error (.notFound ⟨[target]⟩))
  /-- The last of at most so many expressions refers to one that the walk has passed. -/
  | cycle {front rest : List String} {key : String}
    (walk : IsWalk members start (front ++ key :: rest)) (short : (front ++ key :: rest).length ≤ limit)
    (distinct : (front ++ key :: rest).Nodup)
    (again : LeadsOn members ((key :: rest).getLast (List.cons_ne_nil _ _)) key) :
    WalkEnds members limit start (.error (.cycle ((key :: rest ++ [key]).map fun k => ⟨[k]⟩)))
  /-- The walk goes on to an expression beyond the limit. -/
  | tooDeep {front : List String} {last : String} (walk : IsWalk members start (front ++ [last]))
    (long : front.length = limit) (distinct : (front ++ [last]).Nodup) :
    WalkEnds members limit start (.error (.depth limit ⟨[last]⟩))

/-! ## What a name stands for -/

namespace PlainName

variable {name : String}

theorem not_marked (h : PlainName name) : isMarked name = false :=
  (isExact_eq_false h.bare).2

/-- Neither spelling of a plain name has a tag to score with. -/
theorem ofKey_eq (h : PlainName name) (requested : Table Dimension String) {key : String}
    (hk : key = name ∨ key = mark name) : Candidate.ofKey requested key = ⟨key, 0, 0, true⟩ := by
  rcases hk with rfl | rfl
  · rw [Candidate.ofKey, parse_of_bare h.bare]
    rfl
  · rw [Candidate.ofKey, parse_mark h.bare]
    rfl

end PlainName

namespace IsGraph

variable {members : Members} (h : IsGraph members) {name key : String}

include h

/-- The keys of a slot are the two spellings of its name. -/
theorem key_cases (hk : key ∈ members.map (·.1)) : ∃ name, PlainName name ∧
    (key = name ∨ key = mark name) := by
  obtain ⟨e, he, rfl⟩ := List.mem_map.1 hk
  cases h e he with
  | scalar plain => exact ⟨_, plain, .inl rfl⟩
  | reference plain => exact ⟨_, plain, .inr rfl⟩

theorem key_of_slot (hk : key ∈ members.map (·.1)) (hs : slotName key = name) :
    key = name ∨ key = mark name := by
  obtain ⟨name', hp', hk⟩ := h.key_cases hk
  rcases hk with rfl | rfl
  · rw [slotName_of_bare hp'.bare] at hs
    exact .inl hs
  · rw [slotName_mark hp'.bare] at hs
    exact .inr (hs ▸ rfl)

/-- The spellings of a name compete by their order alone. -/
theorem mem_rankVariants_iff (hp : PlainName name) (context : Context) {c : Candidate} :
    c ∈ rankVariants name context (members.map (·.1)) ↔
      ∃ key, (key = name ∨ key = mark name) ∧ (members.lookup key).isSome ∧ c = ⟨key, 0, 0, true⟩ := by
  rw [mem_rankVariants]
  constructor
  · rintro ⟨key, hk, hs, rfl⟩
    have hkey := h.key_of_slot hk hs
    exact ⟨key, hkey, Assoc.isSome_lookup_iff.2 hk, hp.ofKey_eq _ hkey⟩
  · rintro ⟨key, hkey, hl, rfl⟩
    refine ⟨key, Assoc.isSome_lookup_iff.1 hl, ?_, hp.ofKey_eq _ hkey⟩
    rcases hkey with rfl | rfl
    · exact slotName_of_bare hp.bare
    · exact slotName_mark hp.bare

/-- A plain name selects the key that it stands for, whatever the context. -/
theorem selectKey_eq (hp : PlainName name) (context : Context) :
    selectKey members name context = standing? members name := by
  have hmem {c : Candidate} := h.mem_rankVariants_iff hp context (c := c)
  rw [selectKey, hp.bare, if_neg Bool.false_ne_true]
  unfold resolveVariant winner? standing?
  cases hr : rankVariants name context (members.map (·.1)) with
  | nil =>
    rw [hr] at hmem
    have hnone (key : String) (hkey : key = name ∨ key = mark name) : (members.lookup key).isSome = false := by
      rw [Bool.eq_false_iff]
      intro hl
      exact List.not_mem_nil (hmem.2 ⟨key, hkey, hl, rfl⟩)
    rw [hnone name (.inl rfl), hnone (mark name) (.inr rfl)]
  | cons best rest =>
    obtain ⟨key, hkey, hl, rfl⟩ := hmem.1 (hr ▸ List.mem_cons_self)
    have hle (key' : String) (hkey' : key' = name ∨ key' = mark name)
        (hl' : (members.lookup key').isSome) : (compare key key').isLE :=
      order_head_isLE hr ⟨key', 0, 0, true⟩ (hmem.2 ⟨key', hkey', hl', rfl⟩)
    simp only [Nat.lt_irrefl, if_false, List.find?_cons_of_pos, Option.map_some]
    rcases hkey with rfl | rfl
    · rw [hl]
      cases hm : (members.lookup (mark key)).isSome with
      | false => rfl
      | true =>
        have hkm := hle (mark key) (.inr rfl) hm
        cases hc : compare key (mark key) with
        | gt => simp [hc] at hkm
        | lt | eq => rfl
    · rw [hl]
      cases hn : (members.lookup name).isSome with
      | false => rfl
      | true =>
        have hmk := hle name (.inl rfl) hn
        have hswap : compare name (mark name) = (compare (mark name) name).swap :=
          Std.OrientedCmp.eq_swap
        cases hc : compare (mark name) name with
        | gt => simp [hc] at hmk
        | lt => simp [hswap, hc]
        | eq => exact absurd (Std.LawfulEqOrd.eq_of_compare hc) (mark_ne name)

theorem enter?_name (hp : PlainName name) (context : Context) {value : Value} :
    enter? (.obj members) name context = some (key, value) ↔
      standing? members name = some key ∧ members.lookup key = some value := by
  rw [enter?_obj, h.selectKey_eq hp]

/-- A name of the graph leads to what stands under the key that it stands for. -/
theorem locate_missing (hp : PlainName name) (hs : standing? members name = none) (context : Context) :
    locate (.obj members) ⟨[name]⟩ context = .missing := by
  refine walk_cons_none ?_ []
  rw [Option.eq_none_iff_forall_ne_some]
  rintro ⟨key, value⟩ he
  rw [h.enter?_name hp, hs] at he
  cases he.1

theorem locate_static (hp : PlainName name) (hs : standing? members name = some key)
    (hm : isMarked key = false) {value : Value} (hl : members.lookup key = some value)
    (context : Context) :
    ∃ c, locate (.obj members) ⟨[name]⟩ context = .static ⟨[key]⟩ value c := by
  have he := (h.enter?_name hp (context.merge (Context.own (.obj members)))).2 ⟨hs, hl⟩
  exact ⟨_, walk_cons_static he (isExpression_of_not_marked hm _) []⟩

theorem locate_expression (hp : PlainName name) (hs : standing? members name = some key)
    (hm : isMarked key = true) {text : String} (hl : members.lookup key = some (.str text))
    (context : Context) : locate (.obj members) ⟨[name]⟩ context =
      .expression ⟨⟨[key]⟩, text, context.merge (Context.own (.obj members)), []⟩ :=
  walk_cons_expression ((h.enter?_name hp _).2 ⟨hs, hl⟩) hm []

/-- What stands under a marked key is a reference. -/
theorem exists_quotes (hm : isMarked key = true) (hl : (members.lookup key).isSome) :
    ∃ target, PlainName target ∧ Quotes members key target := by
  obtain ⟨value, hl⟩ := Option.isSome_iff_exists.1 hl
  cases h _ (Assoc.mem_of_lookup hl) with
  | scalar plain =>
    rw [plain.not_marked] at hm
    cases hm
  | reference plain known quotes => exact ⟨_, known, hm, _, hl, quotes⟩

theorem depth_eq_zero (hm : isMarked key = false) {value : Value}
    (hl : members.lookup key = some value) : value.depth = 0 := by
  cases h _ (Assoc.mem_of_lookup hl) with
  | scalar plain flat => exact flat
  | reference =>
    rw [isMarked_mark] at hm
    cases hm

end IsGraph

theorem isSome_of_standing? {members : Members} {name key : String}
    (h : standing? members name = some key) : (members.lookup key).isSome := by
  unfold standing? at h
  split at h
  · next hn hm =>
    cases h
    split
    · exact hm
    · exact hn
  · next hn _ =>
    cases h
    exact hn
  · next _ hm =>
    cases h
    exact hm
  · cases h

/-! ## Walks -/

section

variable {members : Members} {start last key key' target target' : String} {front : List String}

theorem Quotes.unique (h : Quotes members key target) (h' : Quotes members key target') :
    target = target' := by
  obtain ⟨-, text, hl, hp⟩ := h
  obtain ⟨-, text', hl', hp'⟩ := h'
  obtain rfl : text = text' := by simpa [hl] using hl'
  simpa [hp] using hp'

theorem LeadsOn.unique {key₁ key₂ : String} (h₁ : LeadsOn members key key₁)
    (h₂ : LeadsOn members key key₂) : key₁ = key₂ := by
  obtain ⟨target₁, hq₁, hs₁, -⟩ := h₁
  obtain ⟨target₂, hq₂, hs₂, -⟩ := h₂
  obtain rfl := hq₁.unique hq₂
  exact Option.some.inj (hs₁.symm.trans hs₂)

/-- A reference of the graph is to a plain name. -/
theorem Quotes.plain (h : Quotes members key target) (hg : IsGraph members) : PlainName target := by
  obtain ⟨hm, text, hl, -⟩ := id h
  obtain ⟨target', hplain, hquotes⟩ := hg.exists_quotes hm (by rw [hl]; rfl)
  rwa [h.unique hquotes]

/-- From an expression there are so many steps on, and no more. -/
inductive StopsAfter (members : Members) : String → Nat → Prop where
  | here {key : String} (stops : ∀ key', ¬ LeadsOn members key key') : StopsAfter members key 0
  | next {key key' : String} {n : Nat} (on : LeadsOn members key key')
    (rest : StopsAfter members key' n) : StopsAfter members key (n + 1)

theorem StopsAfter.unique {n m : Nat} (h : StopsAfter members key n)
    (h' : StopsAfter members key m) : n = m := by
  induction h generalizing m with
  | here stops =>
    cases h' with
    | here => rfl
    | next on => exact absurd on (stops _)
  | next on rest ih =>
    cases h' with
    | here stops => exact absurd on (stops _)
    | next on' rest' =>
      obtain rfl := on.unique on'
      rw [ih rest']

/-- On a walk that stops, each expression is nearer to the end than those before it. -/
theorem stopsAfter_of_chain (hchain : (front ++ [last]).IsChain (LeadsOn members))
    (hstop : ∀ key', ¬ LeadsOn members last key') :
    (∀ first, (front ++ [last]).head? = some first → StopsAfter members first front.length) ∧
      ∀ key ∈ front ++ [last], ∃ n ≤ front.length, StopsAfter members key n := by
  induction front with
  | nil =>
    have hlast : StopsAfter members last 0 := .here hstop
    refine ⟨?_, ?_⟩
    · rintro first ⟨⟩
      exact hlast
    · intro key hk
      obtain rfl := List.mem_singleton.1 hk
      exact ⟨0, Nat.le_refl 0, hlast⟩
  | cons key front ih =>
    obtain ⟨next, rest, hrest⟩ := List.exists_cons_of_ne_nil (List.append_ne_nil_of_right_ne_nil front
      (List.cons_ne_nil last []))
    rw [List.cons_append, hrest, List.isChain_cons_cons] at hchain
    rw [← hrest] at hchain
    obtain ⟨hfirst, hall⟩ := ih hchain.2
    have hkey : StopsAfter members key (front.length + 1) :=
      .next hchain.1 (hfirst next (by rw [hrest]; rfl))
    constructor
    · rintro first ⟨⟩
      exact hkey
    · intro k hk
      rcases List.mem_cons.1 hk with rfl | hk
      · exact ⟨_, Nat.le_refl _, hkey⟩
      · obtain ⟨n, hn, hs⟩ := hall k hk
        exact ⟨n, Nat.le_succ_of_le hn, hs⟩

/-- A walk that stops passes no expression twice. -/
theorem nodup_of_stops (hchain : (front ++ [last]).IsChain (LeadsOn members))
    (hstop : ∀ key', ¬ LeadsOn members last key') : (front ++ [last]).Nodup := by
  induction front with
  | nil => exact List.nodup_singleton last
  | cons key front ih =>
    have htail : (front ++ [last]).IsChain (LeadsOn members) := hchain.tail
    have hfirst : StopsAfter members key (key :: front).length :=
      (stopsAfter_of_chain hchain hstop).1 key rfl
    refine List.nodup_cons.2 ⟨fun hk => ?_, ih htail⟩
    obtain ⟨n, hn, hs⟩ := (stopsAfter_of_chain htail hstop).2 key hk
    have heq : n = front.length + 1 := hs.unique hfirst
    omega

theorem Quotes.not_leadsOn_of_missing (h : Quotes members key target)
    (hs : standing? members target = none) (key' : String) : ¬ LeadsOn members key key' := by
  rintro ⟨target', h', hs', -⟩
  obtain rfl := h.unique h'
  rw [hs] at hs'
  cases hs'

theorem Quotes.not_leadsOn_of_static (h : Quotes members key target) {found : String}
    (hs : standing? members target = some found) (hm : isMarked found = false) (key' : String) :
    ¬ LeadsOn members key key' := by
  rintro ⟨target', h', hs', hm'⟩
  obtain rfl := h.unique h'
  obtain rfl := Option.some.inj (hs.symm.trans hs')
  rw [hm] at hm'
  cases hm'

/-- A walk goes on step by step until it ends. -/
theorem walkEnds_or_longer (h : IsGraph members) (hm : isMarked start = true)
    (hl : (members.lookup start).isSome) {limit n : Nat} (hn : n ≤ limit) :
    (∃ r, WalkEnds members limit start r) ∨ ∃ front last, IsWalk members start (front ++ [last]) ∧
      front.length = n ∧ (front ++ [last]).Nodup ∧ isMarked last = true ∧ (members.lookup last).isSome := by
  induction n with
  | zero =>
    exact .inr ⟨[], start, ⟨rfl, List.isChain_singleton start⟩, rfl, List.nodup_singleton start, hm, hl⟩
  | succ n ih =>
    rcases ih (by omega) with hends | ⟨front, last, hwalk, rfl, hnodup, hmlast, hllast⟩
    · exact .inl hends
    · obtain ⟨target, -, hquotes⟩ := h.exists_quotes hmlast hllast
      have hshort : (front ++ [last]).length ≤ limit := by
        rw [List.length_append, List.length_singleton]
        exact hn
      cases hs : standing? members target with
      | none => exact .inl ⟨_, .missing hwalk hshort hquotes hs⟩
      | some key =>
        have hsome := isSome_of_standing? hs
        cases hmk : isMarked key with
        | false =>
          obtain ⟨value, hv⟩ := Option.isSome_iff_exists.1 hsome
          exact .inl ⟨_, .scalar hwalk hshort hquotes hs hmk hv⟩
        | true =>
          have hleads : LeadsOn members last key := ⟨target, hquotes, hs, hmk⟩
          by_cases hk : key ∈ front ++ [last]
          · obtain ⟨front', rest, he⟩ := List.append_of_mem hk
            have hlast : (key :: rest).getLast (List.cons_ne_nil _ _) = last := by
              have hg := congrArg List.getLast? he
              rw [List.getLast?_append_cons, List.getLast?_append_cons,
                List.getLast?_eq_some_getLast (List.cons_ne_nil key rest)] at hg
              exact (Option.some.inj hg).symm
            rw [he] at hwalk hshort hnodup
            exact .inl ⟨_, .cycle hwalk hshort hnodup (hlast.symm ▸ hleads)⟩
          · refine .inr ⟨front ++ [last], key, ⟨?_, ?_⟩, by simp, ?_, hmk, hsome⟩
            · rw [List.head?_append, hwalk.1]
              rfl
            · refine List.isChain_append.2 ⟨hwalk.2, List.isChain_singleton key, ?_⟩
              simpa using hleads
            · exact List.nodup_append.2 ⟨hnodup, List.nodup_singleton key, by
                rintro a ha b hb rfl
                exact hk (List.mem_singleton.1 hb ▸ ha)⟩

/-- The walk from every expression ends with something. -/
theorem exists_walkEnds (h : IsGraph members) (hm : isMarked start = true)
    (hl : (members.lookup start).isSome) (limit : Nat) : ∃ r, WalkEnds members limit start r := by
  rcases walkEnds_or_longer h hm hl (Nat.le_refl limit) with
    hends | ⟨front, last, hwalk, hlength, hnodup, -⟩
  · exact hends
  · exact ⟨_, .tooDeep hwalk hlength hnodup⟩

end

end LiveDoc

import LiveDoc.Proofs.AlikePlans
import LiveDoc.Proofs.Numerals
import LiveDoc.Proofs.Places
import LiveDoc.Proofs.Relocation

/-! # Indices in other spellings

An index of an array has many spellings, and each makes a path of its own. Paths that differ in
nothing else lead to the same, but for the places under which expressions are kept.
-/

namespace LiveDoc

namespace Numeral

theorem toList_toString (i : Nat) : (toString i).toList = Nat.toDigits 10 i :=
  Nat.toList_repr

/-- The text of an index names the index itself, if that fits. -/
theorem index?_toString_eq (i : Nat) : index? (toString i) = (some i).filter fitsUnsigned := by
  unfold index?
  rw [toList_toString]
  split
  · next rest hs =>
    have hplus := digits_toDigits i '+' (hs ▸ List.mem_cons_self)
    exact absurd hplus (by decide)
  · exact congrArg (Option.filter fitsUnsigned) (nat?_toDigits i)

theorem index?_toString {i : Nat} (h : fitsUnsigned i = true) : index? (toString i) = some i := by
  rw [index?_toString_eq, Option.filter_some_pos h]

theorem fitsUnsigned_of_index? {s : String} {i : Nat} (h : index? s = some i) :
    fitsUnsigned i = true :=
  (Option.filter_eq_some_iff.1 h).2

/-- An index is spelled by its text alone, with neither a sign nor zeros in front. -/
def Canonical (s : String) : Prop :=
  ∀ i, index? s = some i → s = toString i

end Numeral

/-- Two paths that differ only in how they spell the indices of arrays. -/
inductive Path.Respelled (document : Value) (context : Context) : Path → Path → Prop where
  | refl (p : Path) : Path.Respelled document context p p
  | child {p p' : Path} (h : Path.Respelled document context p p') (segment : String) :
    Path.Respelled document context (p.child segment) (p'.child segment)
  | item {p p' place : Path} {items : List Value} {context' : Context} {segment segment' : String}
    {i : Nat} (h : Path.Respelled document context p p')
    (array : locate document p context = .static place (.arr items) context')
    (index : Numeral.index? segment = some i) (index' : Numeral.index? segment' = some i) :
    Path.Respelled document context (p.child segment) (p'.child segment')

/-- Two walks have led to the same, but for places that stand for one another. -/
inductive Located.Alike (R : Path → Path → Prop) : Located → Located → Prop where
  | missing : Located.Alike R .missing .missing
  | static {place place' : Path} (places : R place place') (value : Value) (context : Context) :
    Located.Alike R (.static place value context) (.static place' value context)
  | expression {site site' : Site} (sites : site.Alike R site') :
    Located.Alike R (.expression site) (.expression site')

namespace Path.Respelled

variable {document : Value} {context : Context} {p p' : Path}

theorem append (h : p.Respelled document context p') (more : List String) :
    (p.append more).Respelled document context (p'.append more) := by
  induction more generalizing p p' with
  | nil => simpa [Path.append] using h
  | cons s more ih => simpa [Path.append, Path.child] using ih (h.child s)

theorem length_eq (h : p.Respelled document context p') : p.length = p'.length := by
  induction h with
  | refl => rfl
  | child | item => simp_all [Path.child, Path.length]

theorem take_child (p : Path) (segment : String) (n : Nat) :
    (p.child segment).take n = if n ≤ p.length then p.take n else p.child segment := by
  split
  · next h => rw [Path.take, Path.take, Path.child, List.take_append_of_le_length h]
  · next h =>
    have hl : (p.segments ++ [segment]).length ≤ n := by
      rw [List.length_append, List.length_singleton]
      exact Nat.lt_of_not_le h
    rw [Path.take, Path.child, List.take_of_length_le hl]

theorem take (h : p.Respelled document context p') (n : Nat) :
    (p.take n).Respelled document context (p'.take n) := by
  induction h with
  | refl p => exact .refl _
  | child h segment ih =>
    rw [take_child, take_child, h.length_eq]
    split
    · exact ih
    · exact h.child segment
  | item h array index index' ih =>
    rw [take_child, take_child, h.length_eq]
    split
    · exact ih
    · exact h.item array index index'

theorem getElem?_child (p : Path) (segment : String) (n : Nat) :
    (p.child segment).segments[n]? =
      if n < p.length then p.segments[n]? else [segment][n - p.length]? :=
  List.getElem?_append

theorem index_eq (h : p.Respelled document context p') (n : Nat) :
    p.segments[n]?.bind Numeral.index? = p'.segments[n]?.bind Numeral.index? := by
  induction h with
  | refl => rfl
  | child h segment ih =>
    rw [getElem?_child, getElem?_child, h.length_eq]
    split
    · exact ih
    · rfl
  | @item p p' _ _ _ _ _ _ h array index index' ih =>
    rw [getElem?_child, getElem?_child, h.length_eq]
    split
    · exact ih
    · cases n - p'.length with
      | zero => exact index.trans index'.symm
      | succ k => rfl

theorem parallel (document : Value) (context : Context) :
    Path.Parallel (Path.Respelled document context) where
  append h := h.append
  take h := h.take
  length h := h.length_eq
  index h := h.index_eq

end Path.Respelled

namespace Located.Alike

variable {R : Path → Path → Prop} {l l' : Located}

theorem ofLocated (hR : Path.Parallel R) (h : l.Alike R l') :
    (Found.ofLocated l).Alike R (Found.ofLocated l') := by
  cases h with
  | missing => exact .missing
  | expression sites => exact .expression sites
  | @static place place' places value context =>
    have hchild (key : String) : R (place.child key) (place'.child key) := hR.append places [key]
    cases value with
    | obj members =>
      refine .mapping ?_ _
      unfold Found.slotsOf
      induction baseNames members with
      | nil => exact .nil
      | cons name rest ih =>
        rw [List.filterMap_cons, List.filterMap_cons]
        cases resolveVariant name context (members.map (·.1)) with
        | none => exact ih
        | some key => exact .cons ⟨rfl, hchild key⟩ ih
    | arr items =>
      refine .list ?_ _
      unfold Found.itemsOf
      induction List.range items.length with
      | nil => exact .nil
      | cons i rest ih => exact .cons (hchild (toString i)) ih
    | _ => exact .scalar _

end Located.Alike

namespace Path.Respelled

variable {document : Value} {context : Context} {p p' : Path}

theorem walk_child {place place' : Path} (h : place.Respelled document context place')
    (value : Value) (context' : Context) (segment : String) :
    (walk value place context' [segment]).Alike (Path.Respelled document context)
      (walk value place' context' [segment]) := by
  rcases walk_cons_cases value context' segment with he | ⟨key, text, he, hk⟩ | ⟨key, child, he, hx⟩
  · rw [walk_cons_none he, walk_cons_none he]
    exact .missing
  · rw [walk_cons_expression he hk, walk_cons_expression he hk]
    exact .expression ⟨h.child key, rfl, rfl, rfl⟩
  · rw [walk_cons_static he hx, walk_cons_static he hx]
    exact .static (h.child key) child _

theorem walk_item {place place' : Path} {items : List Value} {context' : Context}
    {segment segment' : String} {i : Nat} (h : place.Respelled document context place')
    (array : locate document place context = .static place (.arr items) context')
    (index : Numeral.index? segment = some i) (index' : Numeral.index? segment' = some i) :
    (walk (.arr items) place context' [segment]).Alike (Path.Respelled document context)
      (walk (.arr items) place' context' [segment']) := by
  have henter {s : String} (hs : Numeral.index? s = some i) :
      enter? (.arr items) s context' = items[i]?.map (s, ·) := by
    show ((Numeral.index? s).bind (items[·]?)).map (s, ·) = _
    rw [hs, Option.bind_some]
  have hplain {s : String} (hs : Numeral.index? s = some i) (v : Value) :
      isExpression s v = false := by
    exact isExpression_of_not_marked (isExact_eq_false (isExact_of_index? hs)).2 v
  cases hi : items[i]? with
  | none =>
    rw [walk_cons_none (by rw [henter index, hi]; rfl),
      walk_cons_none (by rw [henter index', hi]; rfl)]
    exact .missing
  | some v =>
    rw [walk_cons_static (by rw [henter index, hi]; rfl) (hplain index v),
      walk_cons_static (by rw [henter index', hi]; rfl) (hplain index' v)]
    exact .static (h.item array index index') v _

theorem locate_child (p : Path) (segment : String) :
    locate document (p.child segment) context = (locate document p context).further [segment] :=
  locate_append document p context [segment]

theorem further {l l' : Located} (h : l.Alike (Path.Respelled document context) l')
    (segment : String) :
    (l.further [segment]).Alike (Path.Respelled document context) (l'.further [segment]) := by
  cases h with
  | missing => exact .missing
  | static places value context => exact places.walk_child value context segment
  | expression sites => exact .expression ⟨sites.path, sites.text, sites.context, by rw [sites.rest]⟩

theorem further_item {l' : Located} {place : Path} {items : List Value} {context' : Context}
    {segment segment' : String} {i : Nat}
    (h : (Located.static place (.arr items) context').Alike (Path.Respelled document context) l')
    (array : locate document place context = .static place (.arr items) context')
    (index : Numeral.index? segment = some i) (index' : Numeral.index? segment' = some i) :
    (walk (.arr items) place context' [segment]).Alike (Path.Respelled document context)
      (l'.further [segment']) := by
  cases h with
  | static places => exact places.walk_item array index index'

/-- Paths that differ only in the spelling of indices lead to the same. -/
theorem located (h : p.Respelled document context p') :
    (locate document p context).Alike (Path.Respelled document context)
      (locate document p' context) := by
  induction h with
  | refl p =>
    cases locate document p context with
    | missing => exact .missing
    | static place value context => exact .static (.refl _) value context
    | expression site => exact .expression ⟨.refl _, rfl, rfl, rfl⟩
  | child _ segment ih =>
    simp only [locate_child]
    exact further ih segment
  | item _ array index index' ih =>
    have hplace := locate_place array []
    rw [Path.append, List.append_nil] at hplace
    rw [array] at ih
    rw [locate_child, locate_child, array]
    exact further_item ih hplace index index'

theorem found {S : Setting} (hS : S.FindsIn document context) (h : p.Respelled document context p') :
    (S.find p).Alike (Path.Respelled document context) (S.find p') := by
  rw [hS, hS]
  exact h.located.ofLocated (parallel document context)

/-- A read comes to the same in every spelling of its path. -/
theorem account_descend {S : Setting} (hS : S.FindsIn document context)
    (h : p.Respelled document context p') {fresh : Bool} {levels n : Nat} {a : Account (Option Value)}
    (ha : (Plan.descend fresh levels (S.find p)).account S (S.account n) = some a) :
    ∃ b, (Plan.descend fresh levels (S.find p')).account S (S.account n) = some b ∧
      b.result = a.result :=
  (Plan.alike_descend fresh levels (h.found hS)).account (fun _ _ hp => hp.found hS)
    (fun _ _ _ hs hv =>
      Setting.account_alike (parallel document context) (fun _ _ hp => hp.found hS) hs hv) ha

end Path.Respelled

end LiveDoc

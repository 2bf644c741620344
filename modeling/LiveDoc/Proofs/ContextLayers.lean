import LiveDoc.Context
import LiveDoc.Proofs.Tables
import LiveDoc.Tree
import Mathlib

/-! # Layers of contexts

Layers are merged by the names of their entries, and only then read as dimensions. The last layer that
asks for something on a dimension wins, save for the language, which has two names: of these the longer
one wins, whatever layer it is in.
-/

namespace LiveDoc

namespace Dimension

/-- The names of a dimension, those that win before the others. -/
def names : Dimension → List String
  | .language => ["language", "lang"]
  | .gender => ["gender"]
  | .formality => ["formality"]
  | .custom name => if ofName name = .custom name then [name] else []

theorem eq_of_ofName_eq_custom {m n : String} (h : ofName m = .custom n) : m = n := by
  unfold ofName at h
  split_ifs at h
  exact custom.inj h

theorem mem_names {d : Dimension} {n : String} : n ∈ d.names ↔ ofName n = d := by
  cases d with
  | language =>
    unfold names ofName
    split_ifs <;> simp_all [or_comm]
  | gender =>
    unfold names ofName
    split_ifs with hlang <;> simp_all
    rcases hlang with rfl | rfl <;> decide
  | formality =>
    unfold names ofName
    split_ifs with hlang <;> simp_all
    rcases hlang with rfl | rfl <;> decide
  | custom m =>
    rw [names]
    constructor
    · intro hm
      split_ifs at hm with h
      · rw [List.mem_singleton.1 hm]
        exact h
      · cases hm
    · intro h
      obtain rfl := eq_of_ofName_eq_custom h
      rw [if_pos h]
      exact List.mem_singleton_self _

theorem descending_names (d : Dimension) : d.names.Pairwise fun m n => compare m n = .gt := by
  cases d with
  | language => simp only [names]; decide
  | gender => exact List.pairwise_singleton _ _
  | formality => exact List.pairwise_singleton _ _
  | custom name =>
    rw [names]
    split_ifs
    · exact List.pairwise_singleton _ _
    · exact .nil

end Dimension

theorem findSome?_congr {α β : Type} {f g : α → Option β} {xs : List α} (h : ∀ x ∈ xs, f x = g x) :
    xs.findSome? f = xs.findSome? g := by
  induction xs with
  | nil => rfl
  | cons x xs ih =>
    obtain ⟨hx, hxs⟩ := List.forall_mem_cons.1 h
    rw [List.findSome?_cons, List.findSome?_cons, hx, ih hxs]

namespace Context

/-- What an entry asks for. -/
def tagOf (e : String × String) : Dimension × String :=
  (Dimension.ofName e.1, (Dimension.ofName e.1).normalize e.2)

variable {es rest : List (String × String)} {n v : String} {ns : List String}

/-- An entry in front of others with greater names counts where none of the others has a name that wins
before its own. -/
theorem findSome?_lookup_cons (hns : ns.Pairwise fun m n => compare m n = .gt)
    (hfirst : ∀ e ∈ rest, compare n e.1 = .lt) :
    (ns.findSome? fun m => ((n, v) :: rest).lookup m) =
      (ns.findSome? fun m => rest.lookup m).or (if n ∈ ns then some v else none) := by
  have hother {m : String} (hm : m ≠ n) : ((n, v) :: rest).lookup m = rest.lookup m := by
    rw [Assoc.lookup_cons, if_neg hm]
  have habsent {m : String} (hm : compare n m ≠ .lt) : rest.lookup m = none := by
    rw [Assoc.lookup_eq_none_iff]
    intro hmem
    obtain ⟨e, he, rfl⟩ := List.mem_map.1 hmem
    exact hm (hfirst e he)
  by_cases hn : n ∈ ns
  · obtain ⟨front, back, rfl⟩ := List.append_of_mem hn
    obtain ⟨-, hback, hfront⟩ := List.pairwise_append.1 hns
    have hnone : (n :: back).findSome? (fun m => rest.lookup m) = none := by
      rw [List.findSome?_eq_none_iff]
      intro m hm
      apply habsent
      rcases List.mem_cons.1 hm with rfl | hm
      · simp
      · rw [(List.pairwise_cons.1 hback).1 m hm]
        simp
    have hsame : front.findSome? (fun m => ((n, v) :: rest).lookup m) =
        front.findSome? (fun m => rest.lookup m) := by
      apply findSome?_congr
      intro m hm
      apply hother
      rintro rfl
      have hgt := hfront m hm m List.mem_cons_self
      simp at hgt
    rw [if_pos hn, List.findSome?_append, List.findSome?_append, hnone, hsame, Option.or_none,
      List.findSome?_cons, Assoc.lookup_cons, if_pos rfl]
  · rw [if_neg hn, Option.or_none]
    apply findSome?_congr
    intro m hm
    apply hother
    rintro rfl
    exact hn hm

/-- Of ascending entries the last on a dimension is the one with the first of its names. -/
theorem lookup_tags (d : Dimension) (hes : es.Pairwise fun e f => compare e.1 f.1 = .lt) :
    (es.map tagOf).reverse.lookup d =
      (d.names.findSome? fun n => es.lookup n).map d.normalize := by
  induction es with
  | nil =>
    have hnone : (d.names.findSome? fun n => ([] : List (String × String)).lookup n) = none :=
      List.findSome?_eq_none_iff.2 fun _ _ => rfl
    rw [hnone]
    rfl
  | cons e rest ih =>
    obtain ⟨n, v⟩ := e
    obtain ⟨hfirst, hrest⟩ := List.pairwise_cons.1 hes
    rw [findSome?_lookup_cons d.descending_names hfirst, Option.map_or, ← ih hrest, List.map_cons,
      List.reverse_cons, List.lookup_append, Assoc.lookup_cons]
    simp only [Dimension.mem_names]
    by_cases hd : Dimension.ofName n = d
    · subst hd
      simp [tagOf]
    · simp [tagOf, hd, Ne.symm hd]

/-- What is asked for on a dimension is asked for under the first of its names that is there. -/
theorem get?_requested (c : Context) (d : Dimension) :
    c.requested.get? d = (d.names.findSome? c.get?).map d.normalize := by
  have hget : c.get? = fun n => c.entries.lookup n := funext c.get?_eq_lookup
  rw [hget, ← lookup_tags d c.ascending, requested, Table.get?_ofList]
  rfl

/-- A layer says a language under the longer name, the next says another under the shorter name alone. -/
def Outspeaks (a b : Context) : Prop :=
  ∃ v w, a.get? "language" = some v ∧ b.get? "language" = none ∧ b.get? "lang" = some w ∧
    Dimension.language.normalize v ≠ Dimension.language.normalize w

variable {a b : Context} {d : Dimension}

theorem get?_requested_language (c : Context) :
    c.requested.get? .language = c.language?.map Dimension.language.normalize := by
  rw [get?_requested, language?, Dimension.names, List.findSome?_cons]
  cases c.get? "language" with
  | some v => rfl
  | none => cases h : c.get? "lang" <;> simp [h]

/-- Where a dimension has one name, the later layer wins under that name. -/
theorem get?_requested_merge_of_ne (hd : d ≠ .language) (a b : Context) :
    (requested (a.merge b)).get? d = (b.requested.get? d).or (a.requested.get? d) := by
  have hone : d.names = [] ∨ ∃ n, d.names = [n] := by
    cases d with
    | language => exact absurd rfl hd
    | gender => exact .inr ⟨_, rfl⟩
    | formality => exact .inr ⟨_, rfl⟩
    | custom n =>
      rw [Dimension.names]
      split_ifs
      · exact .inr ⟨n, rfl⟩
      · exact .inl rfl
  rw [get?_requested, get?_requested, get?_requested]
  rcases hone with hn | ⟨n, hn⟩
  · rw [hn]
    rfl
  · rw [hn]
    simp only [List.findSome?_cons, List.findSome?_nil, Table.get?_merge]
    cases b.get? n <;> cases a.get? n <;> rfl

/-- Of two layers the later is asked first for its language, unless it is outspoken. -/
theorem get?_requested_merge_language (h : ¬ a.Outspeaks b) :
    (requested (a.merge b)).get? .language =
      (b.requested.get? .language).or (a.requested.get? .language) := by
  simp only [get?_requested_language, language?, Table.get?_merge]
  cases hb : b.get? "language" with
  | some w => rfl
  | none =>
    cases hb' : b.get? "lang" with
    | none => simp
    | some w =>
      cases ha : a.get? "language" with
      | none => simp
      | some v =>
        have hsame : Dimension.language.normalize v = Dimension.language.normalize w := by
          by_contra hne
          exact h ⟨v, w, ha, hb, hb', hne⟩
        simp [hsame]

theorem Outspeaks.get?_requested_merge (h : a.Outspeaks b) :
    (requested (a.merge b)).get? .language = a.requested.get? .language ∧
      b.requested.get? .language ≠ none ∧
      b.requested.get? .language ≠ a.requested.get? .language := by
  obtain ⟨v, w, ha, hb, hb', hne⟩ := h
  simp [get?_requested_language, language?, Table.get?_merge, ha, hb, hb', Ne.symm hne]

/-- Requests are merged as contexts are where the earlier layer does not outspeak the later one. -/
theorem requested_merge_iff : requested (a.merge b) = a.requested.merge b.requested ↔
    ¬ a.Outspeaks b := by
  constructor
  · intro h hout
    obtain ⟨hmerge, hsome, hne⟩ := hout.get?_requested_merge
    rw [h, Table.get?_merge] at hmerge
    cases hb : b.requested.get? .language with
    | none => exact hsome hb
    | some w =>
      rw [hb, Option.some_or] at hmerge
      exact hne (hb.trans hmerge)
  · intro h
    apply Table.ext_get?
    intro d
    rw [Table.get?_merge]
    by_cases hd : d = .language
    · rw [hd]
      exact get?_requested_merge_language h
    · exact get?_requested_merge_of_ne hd a b

/-! ## Stacks of layers -/

/-- A stack asks for what its last layer says under the first name of the dimension that any layer has. -/
theorem get?_requested_layers (base : Context) (layers : List Context) (d : Dimension) :
    (requested (layers.foldl (·.merge ·) base)).get? d =
      (d.names.findSome? fun n => (layers.reverse.findSome? (·.get? n)).or (base.get? n)).map
        d.normalize := by
  have hget : Table.get? (layers.foldl (·.merge ·) base) =
      fun n => (layers.reverse.findSome? (·.get? n)).or (base.get? n) :=
    funext (base.get?_foldl_merge layers)
  rw [get?_requested, hget]

/-- Layers that all leave out the same name of the language do not outspeak each other. -/
theorem requested_layers {name : String} (hname : name = "language" ∨ name = "lang")
    {base : Context} {layers : List Context} (hbase : base.get? name = none)
    (hlayers : ∀ c ∈ layers, c.get? name = none) :
    requested (layers.foldl (·.merge ·) base) =
      (layers.map requested).foldl (·.merge ·) base.requested := by
  induction layers generalizing base with
  | nil => rfl
  | cons c layers ih =>
    obtain ⟨hc, hlayers⟩ := List.forall_mem_cons.1 hlayers
    have hout : ¬ base.Outspeaks c := by
      rintro ⟨v, w, hv, -, hw, -⟩
      rcases hname with rfl | rfl
      · rw [hbase] at hv
        cases hv
      · rw [hc] at hw
        cases hw
    have hmerged : (base.merge c).get? name = none := by
      rw [Table.get?_merge, hc, hbase, Option.or_none]
    rw [List.foldl_cons, ih hmerged hlayers, requested_merge_iff.2 hout]
    rfl

end Context

/-- The later of two layers wins on every dimension, unless it says its language under the shorter name
alone and the earlier layer says another under the longer one. Then the earlier layer wins. -/
theorem later_layer_wins_iff (a b : Context) :
    (Context.requested (a.merge b) = a.requested.merge b.requested ↔ ¬ a.Outspeaks b) ∧
    (∀ d, d ≠ .language → (Context.requested (a.merge b)).get? d =
      (b.requested.get? d).or (a.requested.get? d)) ∧
    (a.Outspeaks b → (Context.requested (a.merge b)).get? .language =
        a.requested.get? .language ∧
      b.requested.get? .language ≠ none ∧
      b.requested.get? .language ≠ a.requested.get? .language) := by
  refine ⟨Context.requested_merge_iff, ?_, ?_⟩
  · intro d hd
    exact Context.get?_requested_merge_of_ne hd a b
  · intro h
    exact h.get?_requested_merge

/-- The earlier of two layers keeps its language and loses its gender. -/
theorem earlier_language_kept :
    let a : Context := (Table.single "gender" "m").merge (.single "language" "es")
    let b : Context := (Table.single "gender" "F").merge (.single "lang" "en")
    Dimension.gender ≠ .language ∧ a.Outspeaks b ∧
      (Context.requested (a.merge b)).get? .gender = some "f" ∧
      (Context.requested (a.merge b)).get? .language = some "es" := by
  intro a b
  have hd : Dimension.gender ≠ .language := by decide
  have hout : a.Outspeaks b := ⟨"es", "en", by decide, by decide, by decide, by decide⟩
  refine ⟨hd, hout, ?_, ?_⟩
  · rw [(later_layer_wins_iff a b).2.1 .gender hd]
    decide
  · rw [((later_layer_wins_iff a b).2.2 hout).1]
    decide

/-- A text in two languages under a layer that asks for one of them. -/
def english : Value :=
  .obj [("$context", .obj [("lang", .str "en")]), ("t", .str "plain"), ("t:en", .str "Hello"),
    ("t:es", .str "Hola")]

/-- Spanish is asked for by the call, English by the document, whose layer is the later one. -/
theorem english_outspoken :
    let a : Context := .single "language" "es"
    let b : Context := .single "lang" "en"
    let t : Tree Unit := .ofDocument english .default ()
    Context.own english = b ∧ Context.requested (a.merge b) ≠ a.requested.merge b.requested ∧
      (t.get .root "t" ⟨false, none, some a⟩).2 = some (.ok (some (.str "Hola"))) ∧
      (t.get .root "t" ⟨false, none, some (.single "lang" "es")⟩).2 =
        some (.ok (some (.str "Hello"))) := by
  intro a b t
  refine ⟨by decide, ?_, ?_, ?_⟩
  · rw [Ne, Context.requested_merge_iff, not_not]
    exact ⟨"es", "en", rfl, rfl, rfl, by decide⟩
  · cbv
  · cbv

end LiveDoc

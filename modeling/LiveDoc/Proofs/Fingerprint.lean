import LiveDoc.Context
import Mathlib.Data.List.Basic

/-! # Fingerprints

A fingerprint can be read back where no name holds the sign behind names and no value the sign behind
values: contexts of that kind have different fingerprints if they differ. Nothing is escaped, so other
contexts spell the entries of each other.
-/

namespace LiveDoc

namespace Table

variable {κ ν : Type} [Ord κ] [Std.TransOrd κ] [Std.LawfulEqOrd κ]

theorem mem_insertAll {t : Table κ ν} {es : List (κ × ν)} {e : κ × ν}
    (h : e ∈ (t.insertAll es).entries) : e ∈ t.entries ∨ e ∈ es := by
  induction es generalizing t with
  | nil => exact .inl h
  | cons d rest ih =>
    rcases ih h with h | h
    · rcases mem_insertEntry h with rfl | h
      · exact .inr List.mem_cons_self
      · exact .inl h
    · exact .inr (List.mem_cons_of_mem _ h)

end Table

/-- What stands before the first of a character and what stands behind it are told by the whole. -/
theorem append_cons_inj {α : Type} {a : α} {xs ys xs' ys' : List α} (h : a ∉ xs) (h' : a ∉ xs')
    (he : xs ++ a :: ys = xs' ++ a :: ys') : xs = xs' ∧ ys = ys' := by
  induction xs generalizing xs' with
  | nil =>
    cases xs' with
    | nil => simpa using he
    | cons b xs' =>
      obtain ⟨rfl, -⟩ := List.cons.inj he
      simp at h'
  | cons b xs ih =>
    cases xs' with
    | nil =>
      obtain ⟨rfl, -⟩ := List.cons.inj he
      simp at h
    | cons b' xs' =>
      obtain ⟨rfl, htail⟩ := List.cons.inj he
      rw [List.mem_cons, not_or] at h h'
      obtain ⟨rfl, rfl⟩ := ih h.2 h'.2 htail
      exact ⟨rfl, rfl⟩

namespace Context

/-- No character of a text separates entries or names in a fingerprint. -/
def Unseparated (s : String) : Prop :=
  ';' ∉ s.toList ∧ '=' ∉ s.toList

/-- Names and values hold no separators. -/
def Clean (c : Context) : Prop :=
  ∀ e ∈ c.entries, Unseparated e.1 ∧ Unseparated e.2

/-- Where names and values end in a fingerprint can be told. -/
def Legible (c : Context) : Prop :=
  ∀ e ∈ c.entries, '=' ∉ e.1.toList ∧ ';' ∉ e.2.toList

theorem clean_empty : Clean .empty :=
  fun _ h => absurd h List.not_mem_nil

theorem Clean.merge {c d : Context} (hc : c.Clean) (hd : d.Clean) : Clean (Table.merge c d) := by
  intro e he
  rcases Table.mem_insertAll he with he | he
  · exact hc e he
  · exact hd e he

theorem Clean.legible {c : Context} (h : c.Clean) : c.Legible := by
  intro e he
  obtain ⟨hn, hv⟩ := h e he
  exact ⟨hn.2, hv.1⟩

/-! ## The text of entries -/

/-- The entries of a context as its fingerprint writes them. -/
def entriesText (es : List (String × String)) : String :=
  ";".intercalate (es.map fun e => e.1 ++ "=" ++ e.2)

/-- What stands behind the name of the first entry. -/
def tailText (value : String) : List (String × String) → String
  | [] => value
  | e :: rest => value ++ ";" ++ entriesText (e :: rest)

variable {name value name' value' : String} {rest rest' es es' : List (String × String)}

theorem entriesText_cons (name value : String) (rest : List (String × String)) :
    entriesText ((name, value) :: rest) = name ++ "=" ++ tailText value rest := by
  cases rest with
  | nil => simp [entriesText, tailText]
  | cons e rest =>
    simp only [entriesText, tailText, List.map_cons, String.intercalate_cons_cons,
      String.append_assoc]

theorem toList_append_sign (s t : String) (c : Char) :
    (s ++ String.singleton c ++ t).toList = s.toList ++ c :: t.toList := by
  simp

/-- A text is told in front of a sign that it does not hold. -/
theorem append_sign_inj {s t s' t' : String} {c : Char} (h : c ∉ s.toList) (h' : c ∉ s'.toList)
    (he : s ++ String.singleton c ++ t = s' ++ String.singleton c ++ t') : s = s' ∧ t = t' := by
  have hl := congrArg String.toList he
  rw [toList_append_sign, toList_append_sign] at hl
  obtain ⟨hs, ht⟩ := append_cons_inj h h' hl
  exact ⟨String.toList_injective hs, String.toList_injective ht⟩

theorem entriesText_ne_empty : entriesText ((name, value) :: rest) ≠ "" := by
  rw [entriesText_cons]
  intro he
  have hl := congrArg String.toList he
  simp at hl

theorem tailText_inj (hv : ';' ∉ value.toList) (hv' : ';' ∉ value'.toList)
    (h : tailText value rest = tailText value' rest') :
    value = value' ∧ entriesText rest = entriesText rest' := by
  cases rest with
  | nil =>
    cases rest' with
    | nil => exact ⟨h, rfl⟩
    | cons e' rest' =>
      rw [show value = _ from h] at hv
      simp [tailText] at hv
  | cons e rest =>
    cases rest' with
    | nil =>
      rw [← show _ = value' from h] at hv'
      simp [tailText] at hv'
    | cons e' rest' => exact append_sign_inj hv hv' h

/-- Read from the front, the name of an entry ends at the first equals sign and its value at the next
semicolon. -/
theorem entriesText_injective (hs : ∀ e ∈ es, '=' ∉ e.1.toList ∧ ';' ∉ e.2.toList)
    (hs' : ∀ e ∈ es', '=' ∉ e.1.toList ∧ ';' ∉ e.2.toList)
    (h : entriesText es = entriesText es') : es = es' := by
  induction es generalizing es' with
  | nil =>
    cases es' with
    | nil => rfl
    | cons e' es' => exact absurd h.symm entriesText_ne_empty
  | cons e es ih =>
    cases es' with
    | nil => exact absurd h entriesText_ne_empty
    | cons e' es' =>
      obtain ⟨hfirst, hs⟩ := List.forall_mem_cons.1 hs
      obtain ⟨hfirst', hs'⟩ := List.forall_mem_cons.1 hs'
      rw [entriesText_cons, entriesText_cons] at h
      obtain ⟨hname, htail⟩ := append_sign_inj hfirst.1 hfirst'.1 h
      obtain ⟨hvalue, hrest⟩ := tailText_inj hfirst.2 hfirst'.2 htail
      rw [Prod.ext hname hvalue, ih hs hs' hrest]

theorem Legible.fingerprint_injective {c d : Context} (hc : c.Legible) (hd : d.Legible)
    (h : c.fingerprint = d.fingerprint) : c = d :=
  Table.eq_of_entries (entriesText_injective hc hd h)

theorem fingerprint_injective {c d : Context} (hc : c.Clean) (hd : d.Clean)
    (h : c.fingerprint = d.fingerprint) : c = d :=
  hc.legible.fingerprint_injective hd.legible h

end Context

end LiveDoc

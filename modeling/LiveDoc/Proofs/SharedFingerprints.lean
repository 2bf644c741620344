import LiveDoc.Proofs.Coalescing
import LiveDoc.Proofs.Fingerprint
import LiveDoc.Proofs.Tables
import Mathlib

/-! # Contexts with one fingerprint

A name or a value that holds a separator can spell other entries. Which contexts are told by their
fingerprints, and with them the results that are kept for them and the reads that are under way?
-/

namespace LiveDoc

namespace Context

/-- A context shares its fingerprint with no other. -/
def Unmistakable (a : Context) : Prop :=
  ∀ b : Context, b.fingerprint = a.fingerprint → b = a

variable {a : Context} {name value name' value' : String} {rest : List (String × String)}

theorem fingerprint_of_entries (h : a.entries = (name, value) :: rest) :
    a.fingerprint = name ++ "=" ++ tailText value rest := by
  rw [← entriesText_cons, ← h]
  rfl

theorem fingerprint_single (name value : String) :
    fingerprint (.single name value) = name ++ "=" ++ value := by
  rw [fingerprint_of_entries (a := Table.single name value) rfl, tailText]

theorem fingerprint_eq_empty_iff : a.fingerprint = "" ↔ a.entries = [] := by
  constructor
  · intro h
    cases he : a.entries with
    | nil => rfl
    | cons e rest =>
      rw [fingerprint_of_entries he, ← entriesText_cons] at h
      exact absurd h entriesText_ne_empty
  · intro h
    rw [fingerprint, h]
    rfl

theorem mem_tailText_cons (value : String) (e : String × String) :
    '=' ∈ (tailText value (e :: rest)).toList := by
  rw [tailText, entriesText_cons]
  simp

theorem exists_append_of_mem {s : String} (h : '=' ∈ s.toList) :
    ∃ front back, s = front ++ "=" ++ back := by
  obtain ⟨front, back, hs⟩ := List.append_of_mem h
  refine ⟨String.ofList front, String.ofList back, String.toList_injective ?_⟩
  rw [hs]
  simp

/-- A text in which a sign stands once is told from all others by the two sides of the sign. -/
theorem append_sign_unique {s t s' t' : String} {c : Char} (hs : c ∉ s.toList) (ht : c ∉ t.toList)
    (he : s ++ String.singleton c ++ t = s' ++ String.singleton c ++ t') : s = s' ∧ t = t' := by
  have hl := congrArg String.toList he
  rw [toList_append_sign, toList_append_sign, List.append_cons_inj_of_notMem hs ht] at hl
  exact ⟨String.toList_injective hl.1, String.toList_injective hl.2.2⟩

theorem append_sign_ne (s t : String) : s ++ "=" ++ t ≠ s := by
  intro h
  have hl := congrArg String.length h
  simp only [String.length_append] at hl
  have hone : "=".length = 1 := rfl
  omega

/-- Several entries spell a single one, and another equals sign moves the end of the name. -/
theorem Unmistakable.entry (hu : a.Unmistakable) (h : a.entries = (name, value) :: rest) :
    rest = [] ∧ '=' ∉ name.toList ∧ '=' ∉ value.toList := by
  have hone : Table.single name (tailText value rest) = a := by
    apply hu
    rw [fingerprint_single, fingerprint_of_entries h]
  obtain rfl : rest = [] := by
    have he := congrArg Table.entries hone
    rw [h] at he
    exact (List.cons.inj he).2.symm
  have hname (name' value' : String) (he : name' ++ "=" ++ value' = name ++ "=" ++ value) :
      name' = name := by
    have hsame : Table.single name' value' = a := by
      apply hu
      rw [fingerprint_single, he, fingerprint_of_entries h]
      rfl
    rw [← hone, Table.single_inj] at hsame
    exact hsame.1
  refine ⟨rfl, ?_, ?_⟩
  · intro hm
    obtain ⟨front, back, rfl⟩ := exists_append_of_mem hm
    have hshort : front = front ++ "=" ++ back := by
      apply hname front (back ++ "=" ++ value)
      simp only [String.append_assoc]
    exact append_sign_ne front back hshort.symm
  · intro hm
    obtain ⟨front, back, rfl⟩ := exists_append_of_mem hm
    have hlong : name ++ "=" ++ front = name := by
      apply hname (name ++ "=" ++ front) back
      simp only [String.append_assoc]
    exact append_sign_ne name front hlong

/-- Only a context without entries, or with one and no equals sign in it, is told from all others. -/
theorem unmistakable_iff : a.Unmistakable ↔ a.entries = [] ∨
    ∃ name value, a.entries = [(name, value)] ∧ '=' ∉ name.toList ∧ '=' ∉ value.toList := by
  constructor
  · intro hu
    cases he : a.entries with
    | nil => exact .inl rfl
    | cons e rest =>
      obtain ⟨name, value⟩ := e
      obtain ⟨rfl, hn, hv⟩ := hu.entry he
      exact .inr ⟨name, value, rfl, hn, hv⟩
  · rintro (h | ⟨name, value, h, hn, hv⟩) b hb
    · rw [fingerprint_eq_empty_iff.2 h, fingerprint_eq_empty_iff] at hb
      apply Table.eq_of_entries
      rw [hb, h]
    · apply Table.eq_of_entries
      rw [fingerprint_of_entries h] at hb
      cases he : b.entries with
      | nil =>
        rw [fingerprint_eq_empty_iff.2 he, ← entriesText_cons] at hb
        exact absurd hb.symm entriesText_ne_empty
      | cons e rest =>
        obtain ⟨name', value'⟩ := e
        rw [fingerprint_of_entries he] at hb
        obtain ⟨rfl, htail⟩ := append_sign_unique hn hv hb.symm
        cases rest with
        | nil =>
          rw [h]
          exact congrArg (fun v => [(name, v)]) htail.symm
        | cons e rest => exact absurd (htail ▸ mem_tailText_cons value' e) hv

end Context

/-- Legible contexts are told by their fingerprints. Of all contexts only those without entries, or with
one and no equals sign in it, share theirs with no other. The fingerprint is all that the keys of kept
results and of reads under way tell of a context. -/
theorem contexts_told_by_fingerprints (a b : Context) :
    (a.Legible → b.Legible → (a.fingerprint = b.fingerprint ↔ a = b)) ∧
    ((∀ c : Context, c.fingerprint = a.fingerprint → c = a) ↔ a.entries = [] ∨
      ∃ name value, a.entries = [(name, value)] ∧ '=' ∉ name.toList ∧ '=' ∉ value.toList) ∧
    (∀ path path' text text' rest rest',
      Request.keyOf ⟨path, text, a, rest⟩ = Request.keyOf ⟨path', text', b, rest'⟩ ↔
        path = path' ∧ a.fingerprint = b.fingerprint) ∧
    ∀ (σ : Type) (t : Tree σ) path fresh fresh' fallback fallback',
      t.readKey path ⟨fresh, fallback, some a⟩ = t.readKey path ⟨fresh', fallback', some b⟩ ↔
        a.fingerprint = b.fingerprint ∧ fallback = fallback' := by
  refine ⟨?_, Context.unmistakable_iff, ?_, ?_⟩
  · intro ha hb
    constructor
    · exact ha.fingerprint_injective hb
    · exact congrArg Context.fingerprint
  · intro path path' text text' rest rest'
    simp [Request.keyOf]
  · intro σ t path fresh fresh' fallback fallback'
    simp [Tree.readKey_eq_iff, ReadOptions.own]

/-- Equals signs in values and semicolons in names leave contexts legible. -/
theorem contexts_told_by_last_value :
    let a : Context := (Table.single "sum" "1+1=2").merge (Table.single "x;y" "0")
    let b : Context := (Table.single "sum" "1+1=2").merge (Table.single "x;y" "1=1")
    a.Legible ∧ b.Legible ∧ a.fingerprint ≠ b.fingerprint := by
  intro a b
  have ha : a.Legible := by unfold Context.Legible; decide
  have hb : b.Legible := by unfold Context.Legible; decide
  refine ⟨ha, hb, ?_⟩
  rw [Ne, (contexts_told_by_fingerprints a b).1 ha hb]
  decide

/-- A document with a text for one tier. -/
def tiered : Value :=
  .obj [(".p", .str "${t}"), ("t", .str "plain"), ("t:tier=gold", .str "gold")]

/-- One entry spells two, and a read under it is answered with what was kept for the two. -/
theorem spelled_entries_mistaken :
    let spelled : Context := .single "tier" "gold;zone=eu"
    let layered : Context := (Table.single "tier" "gold").merge (Table.single "zone" "eu")
    let t : Tree Unit := .ofDocument tiered .default ()
    (spelled.fingerprint = layered.fingerprint ∧ spelled ≠ layered) ∧
      ((t.get .root "p" ⟨false, none, some layered⟩).1.get .root "p" ⟨false, none, some spelled⟩).2 =
        some (.ok (some (.str "gold"))) ∧
      (t.get .root "p" ⟨false, none, some spelled⟩).2 = some (.ok (some (.str "plain"))) := by
  intro spelled layered t
  refine ⟨by decide, ?_, ?_⟩
  · cbv
  · cbv

end LiveDoc

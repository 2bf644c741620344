/-! # Sorted tables

Finite maps as lists of entries in ascending order of their keys. The order is part of the type, so
two tables with the same look-ups are equal.
-/

namespace LiveDoc

variable {κ ν : Type} [Ord κ]

structure Table (κ ν : Type) [Ord κ] where
  entries : List (κ × ν)
  ascending : entries.Pairwise fun a b => compare a.1 b.1 = .lt

namespace Table

theorem eq_of_entries {t u : Table κ ν} (h : t.entries = u.entries) : t = u := by
  cases t; cases u; cases h; rfl

instance [DecidableEq κ] [DecidableEq ν] : DecidableEq (Table κ ν) := fun t u =>
  decidable_of_iff (t.entries = u.entries) ⟨eq_of_entries, fun h => h ▸ rfl⟩

/-- Put an entry in its place among ascending ones, over the entry of an equal key. -/
def insertEntry (k : κ) (v : ν) : List (κ × ν) → List (κ × ν)
  | [] => [(k, v)]
  | e :: rest =>
    match compare k e.1 with
    | .lt => (k, v) :: e :: rest
    | .eq => (k, v) :: rest
    | .gt => e :: insertEntry k v rest

theorem mem_insertEntry {k : κ} {v : ν} {es : List (κ × ν)} {e : κ × ν}
    (h : e ∈ insertEntry k v es) : e = (k, v) ∨ e ∈ es := by
  induction es with
  | nil => simpa [insertEntry] using h
  | cons d rest ih =>
    simp only [insertEntry] at h
    split at h <;> simp only [List.mem_cons] at h ⊢
    · exact h
    · exact h.imp_right .inr
    · rcases h with h | h
      · exact .inr (.inl h)
      · exact (ih h).imp_right .inr

theorem ascending_insertEntry [Std.TransOrd κ] [Std.LawfulEqOrd κ] (k : κ) (v : ν)
    {es : List (κ × ν)} (h : es.Pairwise fun a b => compare a.1 b.1 = .lt) :
    (insertEntry k v es).Pairwise fun a b => compare a.1 b.1 = .lt := by
  induction es with
  | nil => simp [insertEntry]
  | cons d rest ih =>
    rw [List.pairwise_cons] at h
    simp only [insertEntry]
    split
    · next hk =>
      refine List.pairwise_cons.2 ⟨fun e he => ?_, List.pairwise_cons.2 h⟩
      rcases List.mem_cons.1 he with rfl | he
      · exact hk
      · exact Std.TransCmp.lt_trans hk (h.1 e he)
    · next hk =>
      have hk : k = d.1 := Std.LawfulEqOrd.eq_of_compare hk
      exact List.pairwise_cons.2 ⟨fun e he => by rw [hk]; exact h.1 e he, h.2⟩
    · next hk =>
      refine List.pairwise_cons.2 ⟨fun e he => ?_, ih h.2⟩
      rcases mem_insertEntry he with rfl | he
      · exact Std.OrientedCmp.lt_of_gt hk
      · exact h.1 e he

def empty : Table κ ν :=
  ⟨[], .nil⟩

instance : Inhabited (Table κ ν) :=
  ⟨empty⟩

variable (t : Table κ ν)

def isEmpty : Bool :=
  t.entries.isEmpty

/-- The value of a key. -/
def get? (k : κ) : Option ν :=
  (t.entries.find? fun e => compare e.1 k == .eq).map (·.2)

variable [Std.TransOrd κ] [Std.LawfulEqOrd κ]

def insert (k : κ) (v : ν) : Table κ ν :=
  ⟨insertEntry k v t.entries, ascending_insertEntry k v t.ascending⟩

/-- Insert entries in turn; a later one goes over an earlier one of the same key. -/
def insertAll (es : List (κ × ν)) : Table κ ν :=
  es.foldl (fun t e => t.insert e.1 e.2) t

def ofList (es : List (κ × ν)) : Table κ ν :=
  empty.insertAll es

/-- The entries of both tables; those of the second go first where both have a key. -/
def merge (u : Table κ ν) : Table κ ν :=
  t.insertAll u.entries

end Table

end LiveDoc

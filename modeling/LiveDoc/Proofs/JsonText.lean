import LiveDoc.Json.Reader
import LiveDoc.Proofs.NumberText
import Mathlib.Tactic.IntervalCases

/-! # JSON text

Compact JSON text tells which value it writes, whatever follows it.
-/

namespace LiveDoc

namespace Json

variable {s t rest rest' : List Char}

/-! ## Texts -/

theorem unit16_hexDigits {n : Nat} (h : n < 0x20) :
    unit16 (hexDigits n ++ rest) = some (n, rest) := by
  interval_cases n <;> rfl

theorem codeEscape_hexDigits {c : Char} (h : c.toNat < 0x20) :
    codeEscape (hexDigits c.toNat ++ rest) = some (c, rest) := by
  have htrailing : ¬ (0xDC00 ≤ c.toNat ∧ c.toNat < 0xE000) := by omega
  have hleading : ¬ (0xD800 ≤ c.toNat ∧ c.toNat < 0xDC00) := by omega
  simp only [codeEscape, unit16_hexDigits h, Option.bind_eq_bind, Option.bind_some,
    if_neg htrailing, if_neg hleading, Char.ofNat_toNat]

theorem characters_escaped {c : Char} {cs : List Char} (h : escaped cs = some (c, rest))
    (steps : Nat) : characters (steps + 1) ('\x5c' :: cs) =
      (characters steps rest).map fun (ds, rest) => (c :: ds, rest) := by
  show (escaped cs).bind _ = _
  rw [h, Option.map_eq_bind]
  rfl

theorem characters_plain {c : Char} (hquote : c ≠ '\x22') (hslash : c ≠ '\x5c')
    (hcontrol : ¬ c.toNat < 0x20) (steps : Nat) : characters (steps + 1) (c :: rest) =
      (characters steps rest).map fun (ds, rest) => (c :: ds, rest) := by
  simp only [characters, beq_iff_eq, hquote, hslash, hcontrol, if_false]
  rw [Option.map_eq_bind]
  rfl

/-- What escapes a character is read as that character. -/
theorem characters_escape (c : Char) (steps : Nat) : characters (steps + 1) (escape c ++ rest) =
    (characters steps rest).map fun (ds, rest) => (c :: ds, rest) := by
  unfold escape
  split
  · next h => obtain rfl : c = '\x22' := Char.toNat_inj.1 h; exact characters_escaped rfl steps
  · next h => obtain rfl : c = '\x5c' := Char.toNat_inj.1 h; exact characters_escaped rfl steps
  · next h => obtain rfl : c = '\x08' := Char.toNat_inj.1 h; exact characters_escaped rfl steps
  · next h => obtain rfl : c = '\t' := Char.toNat_inj.1 h; exact characters_escaped rfl steps
  · next h => obtain rfl : c = '\n' := Char.toNat_inj.1 h; exact characters_escaped rfl steps
  · next h => obtain rfl : c = '\x0c' := Char.toNat_inj.1 h; exact characters_escaped rfl steps
  · next h => obtain rfl : c = '\r' := Char.toNat_inj.1 h; exact characters_escaped rfl steps
  · next hquote hslash _ _ _ _ _ =>
    split
    · next hcontrol =>
      have hcode : escaped ('u' :: (hexDigits c.toNat ++ rest)) = some (c, rest) :=
        codeEscape_hexDigits hcontrol
      exact characters_escaped hcode steps
    · next hcontrol =>
      exact characters_plain (by rintro rfl; exact hquote rfl) (by rintro rfl; exact hslash rfl)
        hcontrol steps

/-- What escapes a text is read as that text, up to the quote that closes it. -/
theorem characters_escapes {steps : Nat} (h : s.length < steps) (rest : List Char) :
    characters steps (s.flatMap escape ++ '\x22' :: rest) = some (s, rest) := by
  induction s generalizing steps with
  | nil =>
    obtain ⟨steps, rfl⟩ : ∃ n, steps = n + 1 := ⟨steps - 1, by omega⟩
    rfl
  | cons c s ih =>
    obtain ⟨steps, rfl⟩ : ∃ n, steps = n + 1 := ⟨steps - 1, by omega⟩
    rw [List.flatMap_cons, List.append_assoc, characters_escape, ih (Nat.lt_of_succ_lt_succ h)]
    rfl

/-- A quoted text can be told from what follows it. -/
theorem quote_append_inj {s t : String}
    (h : (quote s).toList ++ rest = (quote t).toList ++ rest') : s = t ∧ rest = rest' := by
  simp only [quote, String.toList_ofList, List.append_assoc, List.cons_append, List.nil_append,
    List.cons.injEq, true_and] at h
  have hs := characters_escapes
    (show s.toList.length < s.toList.length + t.toList.length + 1 by omega) rest
  have ht := characters_escapes
    (show t.toList.length < s.toList.length + t.toList.length + 1 by omega) rest'
  rw [h, ht, Option.some.injEq, Prod.mk.injEq] at hs
  exact ⟨String.toList_injective hs.1.symm, hs.2.symm⟩

/-! ## Numerals -/

/-- What follows does not go on with a numeral. -/
def Ends (rest : List Char) : Prop :=
  ∀ c ∈ rest.head?, isNumeral c = false

theorem ends_nil : Ends [] :=
  fun _ hc => absurd hc (by simp)

theorem ends_cons {c : Char} (h : isNumeral c = false) : Ends (c :: rest) := by
  intro d hd
  cases hd
  exact h

/-- A numeral reaches as far as its characters go. -/
theorem numeric_append_inj (hs : Number.Numeric s) (ht : Number.Numeric t) (hrest : Ends rest)
    (hrest' : Ends rest') (h : s ++ rest = t ++ rest') : s = t ∧ rest = rest' := by
  induction s generalizing t with
  | nil =>
    cases t with
    | nil => exact ⟨rfl, h⟩
    | cons d t =>
      have hd := ht d List.mem_cons_self
      rw [hrest d (by rw [← List.nil_append rest, h]; rfl)] at hd
      cases hd
  | cons c s ih =>
    cases t with
    | nil =>
      have hc := hs c List.mem_cons_self
      rw [hrest' c (by rw [← List.nil_append rest', ← h]; rfl)] at hc
      cases hc
    | cons d t =>
      obtain ⟨rfl, htail⟩ := List.cons.inj h
      obtain ⟨rfl, hends⟩ := ih (Number.numeric_cons.1 hs).2 (Number.numeric_cons.1 ht).2 htail
      exact ⟨rfl, hends⟩

/-! ## Lists -/

/-- The text of an item can be told from all that may follow it. -/
def Told {α : Type} (text : α → String) (a : α) : Prop :=
  ∀ {b : α} {rest rest' : List Char}, Ends rest → Ends rest' →
    (text a).toList ++ rest = (text b).toList ++ rest' → a = b ∧ rest = rest'

section Lists

variable {α : Type} {text : α → String} {closing : Char} {as bs : List α}

/-- Items with a comma in front of each. -/
def behindCommas (text : α → String) (as : List α) : List Char :=
  as.flatMap fun a => ',' :: (text a).toList

theorem toList_join_cons (text : α → String) (a : α) (as : List α) :
    (join "," ((a :: as).map text)).toList = (text a).toList ++ behindCommas text as := by
  induction as generalizing a with
  | nil => simp [join, behindCommas]
  | cons b as ih =>
    rw [List.map_cons, List.map_cons, join, String.intercalate_cons_cons, String.toList_append,
      String.toList_append, List.append_assoc]
    exact congrArg ((text a).toList ++ ',' :: ·) (ih b)

theorem ends_behindCommas (hclosing : isNumeral closing = false) (as : List α) :
    Ends (behindCommas text as ++ closing :: rest) := by
  cases as with
  | nil => exact ends_cons hclosing
  | cons a as => exact ends_cons rfl

theorem behindCommas_append_inj (hclosing : isNumeral closing = false) (hcomma : closing ≠ ',')
    (hitems : ∀ a ∈ as, Told text a)
    (h : behindCommas text as ++ closing :: rest = behindCommas text bs ++ closing :: rest') :
    as = bs ∧ rest = rest' := by
  induction as generalizing bs with
  | nil =>
    cases bs with
    | nil => exact ⟨rfl, (List.cons.inj h).2⟩
    | cons b bs => exact absurd (List.cons.inj h).1 hcomma
  | cons a as ih =>
    cases bs with
    | nil => exact absurd (List.cons.inj h).1.symm hcomma
    | cons b bs =>
      simp only [behindCommas, List.flatMap_cons, List.cons_append, List.append_assoc,
        List.cons.injEq, true_and] at h
      obtain ⟨rfl, htail⟩ := hitems a List.mem_cons_self (ends_behindCommas hclosing as)
        (ends_behindCommas hclosing bs) h
      obtain ⟨rfl, hrest⟩ := ih (fun a ha => hitems a (List.mem_cons_of_mem _ ha)) htail
      exact ⟨rfl, hrest⟩

/-- A list of items can be told from what follows its closing character, which begins no item. -/
theorem join_append_inj (hclosing : isNumeral closing = false) (hcomma : closing ≠ ',')
    (hstart : ∀ b, ∃ c ∈ (text b).toList.head?, c ≠ closing) (hitems : ∀ a ∈ as, Told text a)
    (h : (join "," (as.map text)).toList ++ closing :: rest =
      (join "," (bs.map text)).toList ++ closing :: rest') : as = bs ∧ rest = rest' := by
  have hcons (b : α) (bs : List α) {cs ds : List Char} :
      closing :: cs ≠ (join "," ((b :: bs).map text)).toList ++ ds := by
    intro he
    obtain ⟨c, hc, hne⟩ := hstart b
    obtain ⟨tail, htail⟩ := List.head?_eq_some_iff.1 hc
    rw [toList_join_cons, htail] at he
    exact hne (List.cons.inj he).1.symm
  cases as with
  | nil =>
    cases bs with
    | nil => exact ⟨rfl, (List.cons.inj h).2⟩
    | cons b bs => exact absurd h (hcons b bs)
  | cons a as =>
    cases bs with
    | nil => exact absurd h.symm (hcons a as)
    | cons b bs =>
      rw [toList_join_cons, toList_join_cons] at h
      exact behindCommas_append_inj hclosing hcomma hitems (congrArg (',' :: ·) h)

end Lists

end Json

namespace Value

open Json

theorem jsonItems_eq (items : List Value) : jsonItems items = items.map json := by
  induction items with
  | nil => rfl
  | cons v rest ih => rw [jsonItems, ih, List.map_cons]

/-- The text of a member: its name, a colon and its value. -/
def memberText (m : String × Value) : String :=
  quote m.1 ++ ":" ++ m.2.json

theorem jsonMembers_eq (members : Members) : jsonMembers members = members.map memberText := by
  induction members with
  | nil => rfl
  | cons m rest ih => rw [jsonMembers, ih, List.map_cons, memberText]

/-- What a text writes, by its first character. -/
def kindOf? (c : Char) : Option Kind :=
  if c = 'n' then some .null
  else if c = 't' ∨ c = 'f' then some .boolean
  else if c = '\x22' then some .string
  else if c = '[' then some .array
  else if c = '\x7b' then some .object
  else if isNumeral c then some .number
  else none

theorem kindOf?_of_numeral {c : Char} (h : isNumeral c = true) : kindOf? c = some .number := by
  have hne (d : Char) (hd : isNumeral d = false) : c ≠ d := by
    rintro rfl
    exact absurd (h.symm.trans hd) (by decide)
  simp [kindOf?, h, hne 'n' rfl, hne 't' rfl, hne 'f' rfl, hne '\x22' rfl, hne '[' rfl,
    hne '\x7b' rfl]

theorem kindOf?_json (v : Value) : ∃ c ∈ v.json.toList.head?, kindOf? c = some v.kind := by
  cases v with
  | null => exact ⟨'n', rfl, rfl⟩
  | bool b =>
    cases b with
    | false => exact ⟨'f', rfl, rfl⟩
    | true => exact ⟨'t', rfl, rfl⟩
  | num n =>
    obtain ⟨c, cs, hcs⟩ := List.exists_cons_of_ne_nil n.text_ne_nil
    have hc := n.numeric_text c (hcs ▸ List.mem_cons_self)
    exact ⟨c, by rw [json, hcs]; rfl, kindOf?_of_numeral hc⟩
  | str s => exact ⟨'\x22', by simp [json, quote], rfl⟩
  | arr items => exact ⟨'[', by simp [json], rfl⟩
  | obj members => exact ⟨'\x7b', by simp [json], rfl⟩

theorem json_ne_empty (v : Value) : v.json ≠ "" := by
  obtain ⟨c, hc, -⟩ := v.kindOf?_json
  intro h
  rw [h] at hc
  cases hc

/-- The first character already tells the kind. -/
theorem kind_eq_of_append {v w : Value} {rest rest' : List Char}
    (h : v.json.toList ++ rest = w.json.toList ++ rest') : v.kind = w.kind := by
  obtain ⟨c, hc, hv⟩ := v.kindOf?_json
  obtain ⟨d, hd, hw⟩ := w.kindOf?_json
  obtain ⟨cs, hcs⟩ := List.head?_eq_some_iff.1 hc
  obtain ⟨ds, hds⟩ := List.head?_eq_some_iff.1 hd
  rw [hcs, hds] at h
  obtain rfl := (List.cons.inj h).1
  exact Option.some.inj (hv.symm.trans hw)

theorem told_null : Told json .null := by
  intro w rest rest' _ _ h
  cases w with
  | null => exact ⟨rfl, List.append_cancel_left h⟩
  | _ => cases kind_eq_of_append h

theorem told_bool (b : Bool) : Told json (.bool b) := by
  intro w rest rest' _ _ h
  cases w with
  | bool b' =>
    cases b <;> cases b'
    · exact ⟨rfl, List.append_cancel_left h⟩
    · exact absurd (List.cons.inj h).1 (by decide)
    · exact absurd (List.cons.inj h).1 (by decide)
    · exact ⟨rfl, List.append_cancel_left h⟩
  | _ => cases kind_eq_of_append h

theorem told_num (n : Number) : Told json (.num n) := by
  intro w rest rest' hrest hrest' h
  cases w with
  | num m =>
    obtain ⟨htext, hends⟩ := numeric_append_inj n.numeric_text m.numeric_text hrest hrest' h
    rw [n.text_injective (String.toList_injective htext)]
    exact ⟨rfl, hends⟩
  | _ => cases kind_eq_of_append h

theorem told_str (s : String) : Told json (.str s) := by
  intro w rest rest' _ _ h
  cases w with
  | str t =>
    obtain ⟨rfl, hends⟩ := quote_append_inj h
    exact ⟨rfl, hends⟩
  | _ => cases kind_eq_of_append h

theorem told_arr {items : List Value} (h : ∀ v ∈ items, Told json v) :
    Told json (.arr items) := by
  intro w rest rest' _ _ happend
  cases w with
  | arr items' =>
    have hstart (v : Value) : ∃ c ∈ v.json.toList.head?, c ≠ ']' := by
      obtain ⟨c, hc, hkind⟩ := v.kindOf?_json
      exact ⟨c, hc, by rintro rfl; cases hkind⟩
    simp only [json, jsonItems_eq, String.toList_append, List.append_assoc] at happend
    obtain ⟨rfl, hends⟩ := join_append_inj rfl (by decide) hstart h (List.cons.inj happend).2
    exact ⟨rfl, hends⟩
  | _ => cases kind_eq_of_append happend

theorem told_member {m : String × Value} (h : Told json m.2) : Told memberText m := by
  intro m' rest rest' hrest hrest' happend
  simp only [memberText, String.toList_append, List.append_assoc] at happend
  obtain ⟨hname, hvalue⟩ := quote_append_inj happend
  obtain ⟨hvalue, hends⟩ := h hrest hrest' (List.cons.inj hvalue).2
  exact ⟨Prod.ext hname hvalue, hends⟩

theorem told_obj {members : Members} (h : ∀ m ∈ members, Told json m.2) :
    Told json (.obj members) := by
  intro w rest rest' _ _ happend
  cases w with
  | obj members' =>
    have hstart (m : String × Value) : ∃ c ∈ (memberText m).toList.head?, c ≠ '\x7d' :=
      ⟨'\x22', by simp [memberText, quote], by decide⟩
    simp only [json, jsonMembers_eq, String.toList_append, List.append_assoc] at happend
    obtain ⟨rfl, hends⟩ := join_append_inj rfl (by decide) hstart
      (fun m hm => told_member (h m hm)) (List.cons.inj happend).2
    exact ⟨rfl, hends⟩
  | _ => cases kind_eq_of_append happend

mutual

/-- The text of a value can be told from all that may follow it. -/
theorem told (v : Value) : Told json v :=
  match v with
  | .null => told_null
  | .bool b => told_bool b
  | .num n => told_num n
  | .str s => told_str s
  | .arr items => told_arr (told_items items)
  | .obj members => told_obj (told_members members)

theorem told_items (items : List Value) : ∀ v ∈ items, Told json v :=
  match items with
  | [] => fun _ h => absurd h List.not_mem_nil
  | v :: rest => List.forall_mem_cons.2 ⟨told v, told_items rest⟩

theorem told_members (members : Members) : ∀ m ∈ members, Told json m.2 :=
  match members with
  | [] => fun _ h => absurd h List.not_mem_nil
  | (_, v) :: rest => List.forall_mem_cons.2 ⟨told v, told_members rest⟩

end

/-- Compact JSON text tells which value it writes. -/
theorem json_injective {v w : Value} (h : v.json = w.json) : v = w :=
  (told v ends_nil ends_nil (by rw [h])).1

end Value

end LiveDoc

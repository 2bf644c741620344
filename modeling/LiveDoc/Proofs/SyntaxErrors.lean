import LiveDoc.Proofs.PartReading
import LiveDoc.Proofs.Remainders
import LiveDoc.Proofs.TextPositions
import Mathlib

/-! # Where syntax errors point

A template fails only inside a span, since every sign outside of spans may stand for itself. So what
was read when it failed reaches at least behind the first place where a span opens, and the line and
the column of the error tell how far it reaches.
-/

namespace LiveDoc

namespace Template

/-! ## Openings -/

/-- A span opens behind a part of the text. Of the backslashes that its sign stands behind each one
escapes the next, so that none is left over for the sign. -/
structure OpensBehind (before text : List Char) : Prop where
  sign : before ++ ['$', '\x7b'] <+: text
  free : Even (before.rtakeWhile (· == '\x5c')).length

/-- No span opens earlier in the text. -/
structure OpensFirst (before text : List Char) : Prop where
  opens : OpensBehind before text
  least : ∀ other, OpensBehind other text → before.length ≤ other.length

theorem opensBehind_nil (inner : List Char) : OpensBehind [] ('$' :: '\x7b' :: inner) :=
  ⟨⟨inner, rfl⟩, Even.zero⟩

theorem opensFirst_nil (inner : List Char) : OpensFirst [] ('$' :: '\x7b' :: inner) :=
  ⟨opensBehind_nil inner, fun _ _ => Nat.zero_le _⟩

/-- The piece of a template is read as text in front of the rest. -/
inductive Literal : List Char → List Char → Prop where
  | escape {c : Char} (sign : isSign c = true) (rest : List Char) : Literal ['\x5c', c] rest
  | dollar {rest : List Char} (alone : rest.head? ≠ some '\x7b') : Literal ['$'] rest
  | slash {rest : List Char} (alone : ∀ c ∈ rest.head?, isSign c = false) : Literal ['\x5c'] rest
  | plain {piece : List Char} (plain : ∀ c ∈ piece, c ≠ '$' ∧ c ≠ '\x5c') (rest : List Char) :
    Literal piece rest

variable {before piece rest cs : List Char} {c : Char}

theorem rtakeWhile_cons (kind : Char → Bool) (c : Char) (cs : List Char) :
    (c :: cs).rtakeWhile kind =
      if (∀ d ∈ cs, kind d = true) ∧ kind c = true then c :: cs else cs.rtakeWhile kind := by
  split
  · next h => exact List.rtakeWhile_eq_self_iff.2 (List.forall_mem_cons.2 h.symm)
  · next h =>
    rw [List.rtakeWhile, List.reverse_cons, List.takeWhile_append]
    split
    · next hall =>
      have hcs : ∀ d ∈ cs, kind d = true := by
        have hrev := List.takeWhile_eq_self_iff.1
          ((List.takeWhile_prefix kind).eq_of_length hall)
        exact fun d hd => hrev d (List.mem_reverse.2 hd)
      have hc : ¬ kind c = true := fun hc => h ⟨hcs, hc⟩
      rw [List.takeWhile_cons_of_neg hc, List.append_nil, List.reverse_reverse,
        List.rtakeWhile_eq_self_iff.2 hcs]
    · rfl

/-- A character that starts no opening moves all openings on. -/
theorem opensBehind_cons_iff (hopen : ¬ (c = '$' ∧ cs.head? = some '\x7b'))
    (hslash : c = '\x5c' → ∀ d ∈ cs.head?, isSign d = false) :
    OpensBehind before (c :: cs) ↔ ∃ later, before = c :: later ∧ OpensBehind later cs := by
  have hsame (later : List Char) (hsign : later ++ ['$', '\x7b'] <+: cs) :
      (c :: later).rtakeWhile (· == '\x5c') = later.rtakeWhile (· == '\x5c') := by
    rw [rtakeWhile_cons, if_neg]
    rintro ⟨hall, hc⟩
    obtain ⟨tail, rfl⟩ := hsign
    have hnext := hslash (beq_iff_eq.1 hc)
    cases later with
    | nil => exact absurd (hnext '$' rfl) (by decide)
    | cons d later =>
      obtain rfl : d = '\x5c' := beq_iff_eq.1 (hall d List.mem_cons_self)
      exact absurd (hnext '\x5c' rfl) (by decide)
  constructor
  · rintro ⟨hsign, hfree⟩
    cases before with
    | nil =>
      obtain ⟨tail, htail⟩ := hsign
      obtain ⟨rfl, rfl⟩ := List.cons.inj htail
      exact absurd ⟨rfl, rfl⟩ hopen
    | cons d later =>
      obtain ⟨rfl, hlater⟩ := List.cons_prefix_cons.1 hsign
      exact ⟨later, rfl, hlater, hsame later hlater ▸ hfree⟩
  · rintro ⟨later, rfl, hsign, hfree⟩
    exact ⟨List.cons_prefix_cons.2 ⟨rfl, hsign⟩, (hsame later hsign).symm ▸ hfree⟩

/-- An escape moves all openings on: its backslash makes a difference of none or of two. -/
theorem opensBehind_escape_iff (hc : isSign c = true) :
    OpensBehind before ('\x5c' :: c :: cs) ↔
      ∃ later, before = ['\x5c', c] ++ later ∧ OpensBehind later cs := by
  have hparity (later : List Char) : Even (('\x5c' :: c :: later).rtakeWhile (· == '\x5c')).length ↔
      Even (later.rtakeWhile (· == '\x5c')).length := by
    rw [rtakeWhile_cons, rtakeWhile_cons]
    by_cases hall : ∀ d ∈ c :: later, (d == '\x5c') = true
    · obtain ⟨hc, hlater⟩ := List.forall_mem_cons.1 hall
      rw [if_pos ⟨hall, rfl⟩, List.rtakeWhile_eq_self_iff.2 hlater, List.length_cons, List.length_cons,
        Nat.even_add_one, Nat.even_add_one, not_not]
    · rw [if_neg fun h => hall h.1, if_neg fun h => hall (List.forall_mem_cons.2 h.symm)]
  constructor
  · rintro ⟨hsign, hfree⟩
    match before with
    | [] => cases (List.cons_prefix_cons.1 hsign).1
    | [d] =>
      obtain ⟨rfl, -⟩ := List.cons_prefix_cons.1 hsign
      exact absurd hfree (by decide)
    | d :: e :: later =>
      obtain ⟨rfl, htail⟩ := List.cons_prefix_cons.1 hsign
      obtain ⟨rfl, hlater⟩ := List.cons_prefix_cons.1 htail
      exact ⟨later, rfl, hlater, (hparity later).1 hfree⟩
  · rintro ⟨later, rfl, hsign, hfree⟩
    exact ⟨List.cons_prefix_cons.2 ⟨rfl, List.cons_prefix_cons.2 ⟨rfl, hsign⟩⟩, (hparity later).2 hfree⟩

/-- In text no span opens. -/
theorem Literal.opensBehind_iff (h : Literal piece rest) :
    OpensBehind before (piece ++ rest) ↔ ∃ later, before = piece ++ later ∧ OpensBehind later rest := by
  cases h with
  | escape sign => exact opensBehind_escape_iff sign
  | dollar alone => exact opensBehind_cons_iff (fun h => alone h.2) (fun h => absurd h (by decide))
  | slash alone => exact opensBehind_cons_iff (fun h => absurd h.1 (by decide)) fun _ => alone
  | plain plain =>
    induction piece generalizing before with
    | nil => simp
    | cons c piece ih =>
      obtain ⟨⟨hdollar, hslash⟩, hpiece⟩ := List.forall_mem_cons.1 plain
      rw [List.cons_append, opensBehind_cons_iff (fun h => hdollar h.1) (fun h => absurd h hslash)]
      constructor
      · rintro ⟨_, rfl, ho⟩
        obtain ⟨later, rfl, hlater⟩ := (ih hpiece).1 ho
        exact ⟨later, rfl, hlater⟩
      · rintro ⟨later, rfl, ho⟩
        exact ⟨_, rfl, (ih hpiece).2 ⟨later, rfl, ho⟩⟩

theorem Literal.opensFirst (h : Literal piece rest) (ho : OpensFirst before rest) :
    OpensFirst (piece ++ before) (piece ++ rest) where
  opens := h.opensBehind_iff.2 ⟨before, rfl, ho.opens⟩
  least other hother := by
    obtain ⟨later, rfl, hlater⟩ := h.opensBehind_iff.1 hother
    have hle := ho.least later hlater
    simp only [List.length_append]
    omega

end Template

namespace Grammar

open Scanner Template

variable {p : Scanner Expr} {cs rest : List Char} {c : Char}

/-! ## Parts -/

theorem part_dollar (h : rest.head? ≠ some '\x7b') :
    part p none ('$' :: rest) = .accept (.text "$") rest := by
  have hbefore : ∀ q ∈ [escape, span p], q.Refuses ('$' :: rest) := by
    simp only [List.forall_mem_cons]
    exact ⟨⟨_, rfl⟩, (token_pair_refuses h '$').bind _, List.forall_mem_nil _⟩
  have hread : (do char '$'; return .text "$" : Scanner Part) ('$' :: rest) = .accept (.text "$") rest :=
    rfl
  exact firstOf_of_refuses hbefore hread _

theorem part_slash (h : ∀ c ∈ rest.head?, isSign c = false) :
    part p none ('\x5c' :: rest) = .accept (.text "\x5c") rest := by
  have hbefore : ∀ q ∈ [escape, span p, (do char '$'; return .text "$" : Scanner Part)],
      q.Refuses ('\x5c' :: rest) := by
    simp only [List.forall_mem_cons]
    exact ⟨.bind_of_accept (char_cons _ _) ((one_refuses h).bind _), ⟨_, rfl⟩, ⟨_, rfl⟩,
      List.forall_mem_nil _⟩
  have hread : (do char '\x5c'; return .text "\x5c" : Scanner Part) ('\x5c' :: rest) =
      .accept (.text "\x5c") rest := rfl
  exact firstOf_of_refuses hbefore hread _

/-- Where a span opens it is read to its end, or reading breaks off inside of it. -/
theorem part_opening (hp : p.Forward) (inner : List Char) : ∃ left, left <:+ inner ∧
    ((∃ x, part p none ('$' :: '\x7b' :: inner) = .accept x left) ∨
      part p none ('$' :: '\x7b' :: inner) = .broken left) := by
  let body : Scanner Part := do
    let e ← spaced p
    char '\x7d'
    return .span e
  have hbody : body.Forward := hp.spaced.bind fun _ => (forward_char _).bind fun _ => forward_pure _
  have hescape : escape.Refuses ('$' :: '\x7b' :: inner) := ⟨_, rfl⟩
  have hspan : span p ('$' :: '\x7b' :: inner) = body.commit inner :=
    bind_of_accept (token_append ['$', '\x7b'] inner)
  have hpart : part p none ('$' :: '\x7b' :: inner) = _ := hescape.orElse_eq _
  rw [hpart]
  cases h : body.commit inner with
  | accept x left =>
    exact ⟨left, hbody.commit.accepts h, .inl ⟨x, firstOf_of_accept (hspan.trans h) _⟩⟩
  | refuse left => exact absurd h (commit_ne_refuse left)
  | broken left => exact ⟨left, hbody.commit.breaks h, .inr (firstOf_of_broken (hspan.trans h) _)⟩

/-- A template goes on with a text or with a span. -/
theorem part_cases (hne : cs ≠ []) (p : Scanner Expr) :
    (∃ piece rest s, cs = piece ++ rest ∧ piece ≠ [] ∧ Literal piece rest ∧
      part p none cs = .accept (.text s) rest) ∨ ∃ inner, cs = '$' :: '\x7b' :: inner := by
  obtain ⟨c, rest, rfl⟩ := List.exists_cons_of_ne_nil hne
  by_cases hdollar : c = '$'
  · subst hdollar
    by_cases hopen : rest.head? = some '\x7b'
    · obtain ⟨inner, rfl⟩ := List.head?_eq_some_iff.1 hopen
      exact .inr ⟨inner, rfl⟩
    · exact .inl ⟨['$'], rest, _, rfl, List.cons_ne_nil _ _, .dollar hopen, part_dollar hopen⟩
  by_cases hslash : c = '\x5c'
  · subst hslash
    by_cases halone : ∀ c ∈ rest.head?, isSign c = false
    · exact .inl ⟨['\x5c'], rest, _, rfl, List.cons_ne_nil _ _, .slash halone, part_slash halone⟩
    · push Not at halone
      obtain ⟨d, hd, hsign⟩ := halone
      obtain ⟨rest, rfl⟩ := List.head?_eq_some_iff.1 hd
      have hsign : isSign d = true := Bool.eq_true_of_not_eq_false hsign
      exact .inl ⟨['\x5c', d], rest, _, rfl, List.cons_ne_nil _ _, .escape hsign rest,
        part_escape hsign rest⟩
  · let plain (c : Char) : Bool := c != '$' && c != '\x5c' && some c != none
    have hc : plain c = true := by simp [plain, hdollar, hslash]
    have htaken : (c :: rest).takeWhile plain = c :: rest.takeWhile plain :=
      List.takeWhile_cons_of_pos hc
    have hplain : ∀ d ∈ (c :: rest).takeWhile plain, d ≠ '$' ∧ d ≠ '\x5c' := by
      intro d hd
      simpa [plain] using List.mem_takeWhile_imp hd
    have hread : (do
        let cs ← run₁ plain
        return .text (String.ofList cs) : Scanner Part) (c :: rest) =
          .accept (.text (String.ofList ((c :: rest).takeWhile plain))) ((c :: rest).dropWhile plain) :=
      bind_of_accept (by rw [run₁, htaken])
    have hnoDollar : (c :: rest).head? ≠ some '$' := by simpa using hdollar
    have hnoSlash : (c :: rest).head? ≠ some '\x5c' := by simpa using hslash
    have hbefore : ∀ q ∈ [escape, span p, (do char '$'; return .text "$" : Scanner Part),
        (do char '\x5c'; return .text "\x5c" : Scanner Part)], q.Refuses (c :: rest) := by
      simp only [List.forall_mem_cons]
      exact ⟨(char_refuses hnoSlash).bind _, (token_refuses hnoDollar).bind _,
        (char_refuses hnoDollar).bind _, (char_refuses hnoSlash).bind _, List.forall_mem_nil _⟩
    exact .inl ⟨_, _, _, List.takeWhile_append_dropWhile.symm, by rw [htaken]; exact List.cons_ne_nil _ _,
      .plain hplain _, firstOf_of_refuses hbefore hread []⟩

/-- Outside of expressions all is read to the end, unless reading breaks off behind the first
opening. -/
theorem partsUpTo_cases (hp : p.Forward) {n : Nat} (hn : cs.length ≤ n) :
    (∃ xs, partsUpTo p none n cs = .accept xs []) ∨ ∃ before inner left,
      partsUpTo p none n cs = .broken left ∧ OpensFirst before cs ∧
        cs = before ++ '$' :: '\x7b' :: inner ∧ left <:+ inner := by
  induction n generalizing cs with
  | zero =>
    obtain rfl := List.length_eq_zero_iff.1 (Nat.le_zero.1 hn)
    exact .inl ⟨[], rfl⟩
  | succ n ih =>
    by_cases hne : cs = []
    · subst hne
      exact .inl ⟨[], rfl⟩
    have hparts : partsUpTo p none (n + 1) cs = (do
        let x ← part p none
        return x :: (← partsUpTo p none n) : Scanner (List Part)) cs := by
      obtain ⟨c, cs, rfl⟩ := List.exists_cons_of_ne_nil hne
      rfl
    rw [hparts]
    rcases part_cases hne p with ⟨piece, rest, s, rfl, hpiece, hliteral, hread⟩ | ⟨inner, rfl⟩
    · have hpos := List.length_pos_iff.2 hpiece
      rw [bind_of_accept hread]
      rw [List.length_append] at hn
      have hshorter : rest.length ≤ n := by omega
      rcases ih hshorter with ⟨xs, hxs⟩ | ⟨before, inner, left, hbroken, hfirst, rfl, hleft⟩
      · exact .inl ⟨_, bind_of_accept hxs⟩
      · refine .inr ⟨piece ++ before, inner, left, bind_of_broken hbroken, hliteral.opensFirst hfirst, ?_,
          hleft⟩
        rw [List.append_assoc]
    · obtain ⟨left, hleft, ⟨x, hread⟩ | hbroken⟩ := part_opening hp inner
      · rw [bind_of_accept hread]
        have hlength := hleft.length_le
        rw [List.length_cons, List.length_cons] at hn
        have hshorter : left.length ≤ n := by omega
        rcases ih hshorter with ⟨xs, hxs⟩ | ⟨_, later, rest, hbroken, -, rfl, hrest⟩
        · exact .inl ⟨_, bind_of_accept hxs⟩
        · refine .inr ⟨[], inner, rest, bind_of_broken hbroken, opensFirst_nil inner, rfl, ?_⟩
          calc rest <:+ later := hrest
            _ <:+ _ ++ '$' :: '\x7b' :: later :=
              ((List.suffix_cons _ _).trans (List.suffix_cons _ _)).trans (List.suffix_append _ _)
            _ <:+ inner := hleft
      · exact .inr ⟨[], inner, left, bind_of_broken hbroken, opensFirst_nil inner, rfl, hleft⟩

end Grammar

namespace Template

variable {text : String} {e : SyntaxError}

/-- A template is read to the end of its text or breaks off behind the first opening. -/
theorem scan_cases (cs : List Char) : (∃ t, scan cs = .accept t []) ∨ ∃ before inner left,
    scan cs = .broken left ∧ OpensFirst before cs ∧ cs = before ++ '$' :: '\x7b' :: inner ∧
      left <:+ inner := by
  rcases Grammar.partsUpTo_cases (Grammar.forward_expression (cs.length + 1)) (Nat.le_refl cs.length) with
    ⟨xs, hxs⟩ | ⟨before, inner, left, hbroken, hfirst⟩
  · exact .inl ⟨_, Scanner.bind_of_accept hxs⟩
  · exact .inr ⟨before, inner, left, Scanner.bind_of_broken hbroken, hfirst⟩

/-- The line and the column of an error split the text in exactly one way. The error says that the
text has ended exactly if nothing is left behind that place, and the place lies behind the first
opening of a span. -/
theorem error_points_into_text (h : parse text = .error e) :
    (∃! split : List Char × List Char, e.Splits text.toList split.1 split.2) ∧
      ∀ consumed rest, e.Splits text.toList consumed rest →
        ((∃ line column, e = .endOfText line column) ↔ rest = []) ∧
          ∃ before, OpensFirst before text.toList ∧ before ++ ['$', '\x7b'] <+: consumed := by
  rcases scan_cases text.toList with ⟨t, hscan⟩ | ⟨before, inner, left, hscan, hfirst, htext, more, rfl⟩
  · simp only [parse, hscan] at h
    cases h
  simp only [parse, hscan, Except.error.injEq] at h
  subst h
  have hsplit : text.toList = (before ++ ['$', '\x7b'] ++ more) ++ left := by simpa using htext
  have hsplits : (SyntaxError.stoppedAt text.toList left).Splits text.toList
      (before ++ ['$', '\x7b'] ++ more) left := by
    rw [hsplit]
    exact SyntaxError.splits_stoppedAt _ left
  refine ⟨⟨(_, left), hsplits, fun split hs => ?_⟩, fun consumed rest hs => ?_⟩
  · obtain ⟨hconsumed, hrest⟩ := hs.unique hsplits
    exact Prod.ext hconsumed hrest
  · obtain ⟨rfl, rfl⟩ := hs.unique hsplits
    exact ⟨SyntaxError.stoppedAt_eq_endOfText_iff _ _, before, hfirst, more, rfl⟩

/-- An escaped sign and a longer letter stand in front of the span, and a template inside of it holds
the mistake. -/
def mistaken : String :=
  "\x5c$\x7b\né $\x7b1 + \x60$\x7b)\x7d\x60\x7d"

theorem mistaken_pointed_at : parse mistaken = .error (.unexpected 2 13 ")\x7d\x60\x7d") ∧
    ∃ before, OpensFirst before mistaken.toList ∧
      before ++ ['$', '\x7b'] <+: "\x5c$\x7b\né $\x7b1 + \x60$\x7b".toList := by
  have hparse : parse mistaken = .error (.unexpected 2 13 ")\x7d\x60\x7d") := by cbv
  have hsplits : SyntaxError.Splits (.unexpected 2 13 ")\x7d\x60\x7d") mistaken.toList
      "\x5c$\x7b\né $\x7b1 + \x60$\x7b".toList ")\x7d\x60\x7d".toList :=
    ⟨by decide +kernel, SyntaxError.endsAt_iff.2 ⟨by decide +kernel, by decide +kernel⟩⟩
  exact ⟨hparse, ((error_points_into_text hparse).2 _ _ hsplits).2⟩

end Template

end LiveDoc

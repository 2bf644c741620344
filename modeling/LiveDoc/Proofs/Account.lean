import LiveDoc.Evaluation.Read
import Mathlib.Data.List.Basic

/-! # Evaluation without memory

What a plan comes to in a fixed document, when every expression is evaluated anew wherever its value
is needed. Nothing is kept and nothing limits the nesting but a number that only has to be large
enough, so an expression has at most one account.
-/

namespace LiveDoc

/-- What the steps of a plan are answered with. -/
structure Setting where
  find : Path → Found
  call : String → List Value → Except Fault Value

/-- A result with all that was read for it and the keys of all expressions it needed. -/
structure Account (α : Type) where
  result : α
  reads : List Path
  uses : List CacheKey

namespace Account

variable {α : Type}

/-- Add what was read and used before. -/
def after (a : Account α) (reads : List Path) (uses : List CacheKey) : Account α :=
  ⟨a.result, reads ++ a.reads, uses ++ a.uses⟩

end Account

namespace Plan

variable {α β : Type}

/-- The account of a plan that does not fail, given those of the expressions it evaluates. -/
def account (S : Setting) (valueOf : Site → Option (Account Value)) : Plan α → Option (Account α)
  | .done (.ok a) => some ⟨a, [], []⟩
  | .done (.error _) => none
  | .find path next => (account S valueOf (next (S.find path))).map (·.after (walkReads path) [])
  | .evaluate site _ next =>
    (valueOf site).bind fun v =>
      (account S valueOf (next v.result)).map (·.after v.reads v.uses)
  | .call name args next =>
    match S.call name args with
    | .ok v => account S valueOf (next v)
    | .error _ => none

section Inversion

variable {S : Setting} {valueOf : Site → Option (Account Value)} {a : Account α}

theorem account_find {path : Path} {next : Found → Plan α} :
    (Plan.find path next).account S valueOf = some a ↔
      ∃ b, (next (S.find path)).account S valueOf = some b ∧ a = b.after (walkReads path) [] := by
  simp only [account, Option.map_eq_some_iff, @eq_comm _ a]

theorem account_evaluate {site : Site} {fresh : Bool} {next : Value → Plan α} :
    (Plan.evaluate site fresh next).account S valueOf = some a ↔
      ∃ v, valueOf site = some v ∧ ∃ b, (next v.result).account S valueOf = some b ∧
        a = b.after v.reads v.uses := by
  simp only [account, Option.bind_eq_some_iff, Option.map_eq_some_iff, @eq_comm _ a]

theorem account_call {name : String} {args : List Value} {next : Value → Plan α} :
    (Plan.call name args next).account S valueOf = some a ↔
      ∃ v, S.call name args = .ok v ∧ (next v).account S valueOf = some a := by
  rw [account]
  cases S.call name args <;> simp

end Inversion

/-- An account depends on what was read for it, and on nothing else. -/
theorem account_stable {S S' : Setting} (hcall : S'.call = S.call) {Q : Path → Prop}
    (hfind : ∀ path, (∀ slot ∈ walkReads path, Q slot) → S'.find path = S.find path)
    {valueOf valueOf' : Site → Option (Account Value)}
    (hval : ∀ site v, valueOf site = some v → (∀ slot ∈ v.reads, Q slot) → valueOf' site = some v)
    {p : Plan α} {a : Account α} (h : p.account S valueOf = some a) (ha : ∀ slot ∈ a.reads, Q slot) :
    p.account S' valueOf' = some a := by
  induction p generalizing a with
  | done result =>
    cases result with
    | ok => exact h
    | error => cases h
  | find path next ih =>
    obtain ⟨b, hb, rfl⟩ := account_find.1 h
    rw [account_find, hfind path fun slot hs => ha slot (List.mem_append_left _ hs)]
    exact ⟨b, ih _ hb fun slot hs => ha slot (List.mem_append_right _ hs), rfl⟩
  | evaluate site fresh next ih =>
    obtain ⟨v, hv, b, hb, rfl⟩ := account_evaluate.1 h
    exact account_evaluate.2
      ⟨v, hval site v hv fun slot hs => ha slot (List.mem_append_left _ hs), b,
        ih _ hb fun slot hs => ha slot (List.mem_append_right _ hs), rfl⟩
  | call name args next ih =>
    obtain ⟨v, hv, hb⟩ := account_call.1 h
    exact account_call.2 ⟨v, by rw [hcall, hv], ih v hb ha⟩

theorem account_mono {S : Setting} {valueOf valueOf' : Site → Option (Account Value)}
    (hval : ∀ site v, valueOf site = some v → valueOf' site = some v) {p : Plan α} {a : Account α}
    (h : p.account S valueOf = some a) : p.account S valueOf' = some a :=
  account_stable (Q := fun _ => True) rfl (fun _ _ => rfl) (fun site v hv _ => hval site v hv) h
    fun _ _ => trivial

/-- All expressions that a plan may have evaluated satisfy a condition. -/
def Evaluates (S : Setting) (P : Site → Prop) : Plan α → Prop
  | .done _ => True
  | .find path next => Evaluates S P (next (S.find path))
  | .evaluate site _ next => P site ∧ ∀ v, Evaluates S P (next v)
  | .call _ _ next => ∀ v, Evaluates S P (next v)

/-- Whatever an account uses was used by one of the expressions evaluated for it. -/
theorem account_uses {S : Setting} {valueOf : Site → Option (Account Value)} {P : Site → Prop}
    {p : Plan α} {a : Account α} (hp : p.Evaluates S P) (h : p.account S valueOf = some a)
    {key : CacheKey} (hk : key ∈ a.uses) :
    ∃ site v, P site ∧ valueOf site = some v ∧ key ∈ v.uses ∧ ∀ slot ∈ v.reads, slot ∈ a.reads := by
  induction p generalizing a with
  | done result =>
    cases result with
    | ok => cases h; cases hk
    | error => cases h
  | find path next ih =>
    obtain ⟨b, hb, rfl⟩ := account_find.1 h
    obtain ⟨site, v, hs, hv, hkv, hr⟩ := ih _ hp hb hk
    exact ⟨site, v, hs, hv, hkv, fun slot hslot => List.mem_append_right _ (hr slot hslot)⟩
  | evaluate site fresh next ih =>
    obtain ⟨v, hv, b, hb, rfl⟩ := account_evaluate.1 h
    rcases List.mem_append.1 hk with hk | hk
    · exact ⟨site, v, hp.1, hv, hk, fun slot hslot => List.mem_append_left _ hslot⟩
    · obtain ⟨site, v, hs, hv, hkv, hr⟩ := ih _ (hp.2 _) hb hk
      exact ⟨site, v, hs, hv, hkv, fun slot hslot => List.mem_append_right _ (hr slot hslot)⟩
  | call name args next ih =>
    obtain ⟨v, -, hb⟩ := account_call.1 h
    exact ih v (hp v) hb hk

end Plan

namespace Site

/-- The same expression in the same context, whatever was still to follow. -/
def Same (s s' : Site) : Prop :=
  s.path = s'.path ∧ s.text = s'.text ∧ s.context = s'.context

theorem Same.keyOf {s s' : Site} (h : s.Same s') : Request.keyOf s = Request.keyOf s' := by
  rw [Request.keyOf, Request.keyOf, h.1, h.2.2]

theorem Same.render {s s' : Site} (h : s.Same s') : Plan.render s = Plan.render s' := by
  rw [Plan.render, Plan.render, owner, owner, h.1, h.2.1, h.2.2]

end Site

namespace Setting

variable (S : Setting)

/-- The account of an expression whose evaluation nests less than the given number of others. -/
def account : Nat → Site → Option (Account Value)
  | 0, _ => none
  | n + 1, site =>
    ((Plan.render site).account S (account n)).map
      (·.after [site.path.logical] [Request.keyOf site])

variable {S}

theorem account_succ {n : Nat} {site : Site} {a : Account Value} :
    S.account (n + 1) site = some a ↔
      ∃ b, (Plan.render site).account S (S.account n) = some b ∧
        a = b.after [site.path.logical] [Request.keyOf site] := by
  simp only [account, Option.map_eq_some_iff, @eq_comm _ a]

/-- Whoever evaluates an expression reads its slot. -/
theorem path_mem_reads {n : Nat} {site : Site} {a : Account Value} (h : S.account n site = some a) :
    site.path.logical ∈ a.reads := by
  cases n with
  | zero => cases h
  | succ n =>
    obtain ⟨_, -, rfl⟩ := account_succ.1 h
    exact List.mem_append_left _ List.mem_cons_self

/-- Whoever evaluates an expression uses its key. -/
theorem key_mem_uses {n : Nat} {site : Site} {a : Account Value} (h : S.account n site = some a) :
    Request.keyOf site ∈ a.uses := by
  cases n with
  | zero => cases h
  | succ n =>
    obtain ⟨_, -, rfl⟩ := account_succ.1 h
    exact List.mem_append_left _ List.mem_cons_self

theorem account_le {n m : Nat} (hnm : n ≤ m) {site : Site} {a : Account Value}
    (h : S.account n site = some a) : S.account m site = some a := by
  induction n generalizing m site a with
  | zero => cases h
  | succ n ih =>
    obtain ⟨m, rfl⟩ : ∃ k, m = k + 1 := ⟨m - 1, by omega⟩
    obtain ⟨b, hb, rfl⟩ := account_succ.1 h
    have hn (site : Site) (v : Account Value) : S.account n site = some v → S.account m site = some v :=
      ih (by omega)
    exact account_succ.2 ⟨b, Plan.account_mono hn hb, rfl⟩

/-- An expression has at most one account. -/
theorem account_unique {n m : Nat} {site : Site} {a b : Account Value}
    (ha : S.account n site = some a) (hb : S.account m site = some b) : a = b := by
  have ha := account_le (Nat.le_max_left n m) ha
  have hb := account_le (Nat.le_max_right n m) hb
  exact Option.some.inj (ha.symm.trans hb)

theorem account_congr {s s' : Site} (h : s.Same s') (n : Nat) : S.account n s = S.account n s' := by
  cases n with
  | zero => rfl
  | succ n => rw [account, account, h.render, h.keyOf, h.1]

/-- There is a least nesting that an account needs. -/
theorem account_least {n : Nat} {site : Site} {a : Account Value} (h : S.account n site = some a) :
    ∃ k < n, S.account (k + 1) site = some a ∧ S.account k site = none := by
  induction n with
  | zero => cases h
  | succ n ih =>
    cases hn : S.account n site with
    | none => exact ⟨n, Nat.lt_succ_self n, h, hn⟩
    | some b =>
      obtain rfl := account_unique h hn
      obtain ⟨k, hk, hs⟩ := ih hn
      exact ⟨k, Nat.lt_succ_of_lt hk, hs⟩

theorem account_stable {S' : Setting} (hcall : S'.call = S.call) {Q : Path → Prop}
    (hfind : ∀ path, (∀ slot ∈ walkReads path, Q slot) → S'.find path = S.find path)
    {n : Nat} {site : Site} {a : Account Value} (h : S.account n site = some a)
    (ha : ∀ slot ∈ a.reads, Q slot) : S'.account n site = some a := by
  induction n generalizing site a with
  | zero => cases h
  | succ n ih =>
    obtain ⟨b, hb, rfl⟩ := account_succ.1 h
    exact account_succ.2 ⟨b, Plan.account_stable hcall hfind (fun site v hv hr => ih hv hr) hb
      fun slot hs => ha slot (List.mem_append_right _ hs), rfl⟩

/-- Whatever an account uses has an account with no other reads. -/
theorem account_uses {P : Site → Prop} (hP : ∀ site, P site → (Plan.render site).Evaluates S P)
    {n : Nat} {site : Site} {a : Account Value} (hs : P site) (h : S.account n site = some a)
    {key : CacheKey} (hk : key ∈ a.uses) :
    ∃ site' m a', P site' ∧ S.account m site' = some a' ∧ Request.keyOf site' = key ∧
      ∀ slot ∈ a'.reads, slot ∈ a.reads := by
  induction n generalizing site a with
  | zero => cases h
  | succ n ih =>
    obtain ⟨b, hb, rfl⟩ := account_succ.1 h
    rcases List.mem_append.1 hk with hk' | hk'
    · exact ⟨site, n + 1, _, hs, h, (List.mem_singleton.1 hk').symm, fun _ hslot => hslot⟩
    · obtain ⟨inner, v, hi, hv, hkv, hr⟩ := Plan.account_uses (hP site hs) hb hk'
      obtain ⟨site', m, a', hs', ha', hkey, hr'⟩ := ih hi hv hkv
      exact ⟨site', m, a', hs', ha', hkey,
        fun slot hslot => List.mem_append_right _ (hr slot (hr' slot hslot))⟩

end Setting

end LiveDoc

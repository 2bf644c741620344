import LiveDoc.Proofs.KnownReads

/-! # The questions of an expression

An expression asks a bounded number of questions, whatever it is answered: one for each reference
and call in it, and one for each step of a reference that may index an array. It asks for something
to be evaluated anew only if it says so.
-/

namespace LiveDoc

variable {α β : Type}

mutual

/-- How many questions an expression asks at most. -/
def Expr.questions : Expr → Nat
  | .lit _ => 0
  | .template parts => Part.questionsOf parts
  | .array items => Expr.questionsOf items
  | .object entries => Expr.questionsOfEntries entries
  | .ref _ steps | .fresh _ steps => RefStep.questionsOf steps + (steps.length + 1)
  | .call _ args => Expr.questionsOf args + 1
  | .unary _ operand => operand.questions
  | .binary _ left right | .logical _ left right => left.questions + right.questions
  | .conditional condition yes no => condition.questions + max yes.questions no.questions
  | .member object _ => object.questions
  | .index object index => object.questions + index.questions

def Part.questionsOf : List Part → Nat
  | [] => 0
  | .text _ :: rest => Part.questionsOf rest
  | .span e :: rest => e.questions + Part.questionsOf rest

def Expr.questionsOf : List Expr → Nat
  | [] => 0
  | e :: rest => e.questions + Expr.questionsOf rest

def Expr.questionsOfEntries : List (String × Expr) → Nat
  | [] => 0
  | (_, e) :: rest => e.questions + Expr.questionsOfEntries rest

def RefStep.questionsOf : List RefStep → Nat
  | [] => 0
  | .key _ :: rest => RefStep.questionsOf rest
  | .at e :: rest => e.questions + RefStep.questionsOf rest

end

mutual

/-- Whether an expression has something evaluated anew. -/
def Expr.asksAnew : Expr → Bool
  | .lit _ => false
  | .template parts => Part.asksAnewIn parts
  | .array items => Expr.asksAnewIn items
  | .object entries => Expr.asksAnewInEntries entries
  | .ref _ steps => RefStep.asksAnewIn steps
  | .fresh _ _ => true
  | .call _ args => Expr.asksAnewIn args
  | .unary _ operand => operand.asksAnew
  | .binary _ left right | .logical _ left right => left.asksAnew || right.asksAnew
  | .conditional condition yes no => condition.asksAnew || yes.asksAnew || no.asksAnew
  | .member object _ => object.asksAnew
  | .index object index => object.asksAnew || index.asksAnew

def Part.asksAnewIn : List Part → Bool
  | [] => false
  | .text _ :: rest => Part.asksAnewIn rest
  | .span e :: rest => e.asksAnew || Part.asksAnewIn rest

def Expr.asksAnewIn : List Expr → Bool
  | [] => false
  | e :: rest => e.asksAnew || Expr.asksAnewIn rest

def Expr.asksAnewInEntries : List (String × Expr) → Bool
  | [] => false
  | (_, e) :: rest => e.asksAnew || Expr.asksAnewInEntries rest

def RefStep.asksAnewIn : List RefStep → Bool
  | [] => false
  | .key _ :: rest => RefStep.asksAnewIn rest
  | .at e :: rest => e.asksAnew || RefStep.asksAnewIn rest

end

namespace Query

/-- The query asks at most a number of questions, and for something anew only if it may. -/
def Within (anew : Bool) : Query α → Nat → Prop
  | .done _, _ => True
  | .read _ fresh next, n => fresh ≤ anew ∧ 0 < n ∧ ∀ v, (next v).Within anew (n - 1)
  | .measure _ next, n => 0 < n ∧ ∀ size, (next size).Within anew (n - 1)
  | .call _ _ next, n => 0 < n ∧ ∀ v, (next v).Within anew (n - 1)

/-- Every value that the query may come to satisfies a condition. -/
def Returns (P : α → Prop) : Query α → Prop
  | .done result => ∀ a, result = .ok a → P a
  | .read _ _ next => ∀ v, (next v).Returns P
  | .measure _ next => ∀ size, (next size).Returns P
  | .call _ _ next => ∀ v, (next v).Returns P

variable {anew anew' : Bool} {n m : Nat} {q : Query α} {f : α → Query β}

theorem returns_any (q : Query α) : q.Returns fun _ => True := by
  induction q with
  | done result => exact fun _ _ => trivial
  | read path fresh next ih => exact ih
  | measure path next ih => exact ih
  | call name args next ih => exact ih

theorem Returns.bind {P : α → Prop} {Q : β → Prop} (hq : q.Returns P)
    (hf : ∀ a, P a → (f a).Returns Q) : (q.bind f).Returns Q := by
  induction q with
  | done result =>
    cases result with
    | ok a => exact hf a (hq a rfl)
    | error fault => exact nofun
  | read path fresh next ih => exact fun v => ih v (hq v)
  | measure path next ih => exact fun size => ih size (hq size)
  | call name args next ih => exact fun v => ih v (hq v)

theorem Within.mono (h : q.Within anew n) (hn : n ≤ m) (ha : anew ≤ anew') : q.Within anew' m := by
  induction q generalizing n m with
  | done result => exact trivial
  | read path fresh next ih =>
    exact ⟨Bool.le_trans h.1 ha, Nat.lt_of_lt_of_le h.2.1 hn,
      fun v => ih v (h.2.2 v) (Nat.sub_le_sub_right hn 1)⟩
  | measure path next ih | call name args next ih =>
    exact ⟨Nat.lt_of_lt_of_le h.1 hn, fun v => ih v (h.2 v) (Nat.sub_le_sub_right hn 1)⟩

/-- The questions of a query and of what follows it add up. -/
theorem Within.bind_of_returns {P : α → Prop} (hq : q.Within anew n) (hP : q.Returns P)
    (hf : ∀ a, P a → (f a).Within anew m) : (q.bind f).Within anew (n + m) := by
  have hpred {n : Nat} (hn : 0 < n) : n - 1 + m = n + m - 1 := by omega
  induction q generalizing n with
  | done result =>
    cases result with
    | ok a => exact (hf a (hP a rfl)).mono (Nat.le_add_left m n) (Bool.le_refl anew)
    | error fault => exact trivial
  | read path fresh next ih =>
    refine ⟨hq.1, Nat.add_pos_left hq.2.1 m, fun v => ?_⟩
    rw [← hpred hq.2.1]
    exact ih v (hq.2.2 v) (hP v)
  | measure path next ih | call name args next ih =>
    refine ⟨Nat.add_pos_left hq.1 m, fun v => ?_⟩
    rw [← hpred hq.1]
    exact ih v (hq.2 v) (hP v)

theorem Within.bind (hq : q.Within anew n) (hf : ∀ a, (f a).Within anew m) :
    (q.bind f).Within anew (n + m) :=
  hq.bind_of_returns q.returns_any fun a _ => hf a

/-- What follows without further questions adds none. -/
theorem Within.bind_done (hq : q.Within anew n) (hf : ∀ a, (f a).Within anew 0) :
    (q.bind f).Within anew n :=
  hq.bind hf

theorem within_lift (r : Except EvalError α) : (lift r).Within anew n := by
  cases r <;> trivial

theorem Within.orNull {q : Query Value} (h : q.Within anew n) : (orNull q).Within anew n := by
  induction q generalizing n with
  | done result => cases result <;> trivial
  | read path fresh next ih => exact ⟨h.1, h.2.1, fun v => ih v (h.2.2 v)⟩
  | measure path next ih => exact ⟨h.1, fun size => ih size (h.2 size)⟩
  | call name args next ih => exact ⟨h.1, fun v => ih v (h.2 v)⟩

theorem length_indexPlaces (place : Nat) (segments : List String) :
    (indexPlaces place segments).length ≤ segments.length := by
  induction segments generalizing place with
  | nil => exact Nat.le_refl 0
  | cons s rest ih =>
    have hrest := ih (place + 1)
    unfold indexPlaces
    split
    · exact Nat.succ_le_succ hrest
    · exact Nat.le_succ_of_le hrest

theorem within_pastEnd (path : Path) (places : List Nat) :
    (pastEnd path places).Within anew places.length := by
  induction places with
  | nil => trivial
  | cons place places ih =>
    have hlater : (pastEnd path places).Within anew (places.length + 1) :=
      ih.mono (Nat.le_succ _) (Bool.le_refl anew)
    unfold pastEnd
    split
    · exact hlater
    · refine ⟨Nat.succ_pos _, fun size => ?_⟩
      cases size with
      | none => exact ih
      | some size =>
        show (ite _ _ _ : Query Bool).Within anew _
        split
        · trivial
        · exact ih

variable {here : Standpoint}

/-- A reference asks once for its target, and once more for each step that may be an index. -/
theorem within_follow (parents : Nat) (segments : List String) {fresh : Bool} (hf : fresh ≤ anew) :
    (follow here parents segments fresh).Within anew (segments.length + 1) := by
  unfold follow
  split
  · trivial
  · refine ⟨hf, Nat.succ_pos _, fun v => ?_⟩
    cases v with
    | some v => trivial
    | none =>
      have hpast (path : Path) (place : Nat) :
          (pastEnd path (indexPlaces place segments)).Within anew segments.length :=
        (within_pastEnd _ _).mono (length_indexPlaces _ _) (Bool.le_refl anew)
      refine Within.bind_done (q := pastEnd _ _) (hpast _ _) fun past => ?_
      cases past <;> trivial

theorem within_callNamed (name : String) (args : List Value) :
    (callNamed here name args).Within anew 1 := by
  unfold callNamed
  split
  · exact within_lift _
  · exact ⟨Nat.one_pos, fun v => trivial⟩

/-- A reference has as many segments as steps. -/
theorem returns_ofSteps (steps : List RefStep) :
    (ofSteps here steps).Returns (·.length = steps.length) := by
  induction steps with
  | nil =>
    unfold ofSteps
    rintro _ ⟨⟩
    rfl
  | cons step rest ih =>
    have hcons (key : String) :
        ((ofSteps here rest).bind fun segments => .done (.ok (key :: segments))).Returns
          (·.length = rest.length + 1) := by
      refine ih.bind fun segments hl => ?_
      rintro _ ⟨⟩
      exact congrArg (· + 1) hl
    cases step with
    | key name =>
      unfold ofSteps
      exact hcons name
    | «at» e =>
      unfold ofSteps
      exact (returns_any _).bind fun v _ => (returns_any _).bind fun key _ => hcons key

theorem left_le {a b c : Bool} (h : (a || b) ≤ c) : a ≤ c := by
  cases a <;> cases b <;> cases c <;> trivial

theorem right_le {a b c : Bool} (h : (a || b) ≤ c) : b ≤ c := by
  cases a <;> cases b <;> cases c <;> trivial

mutual

/-- An expression asks no more than its number of questions. -/
theorem within_ofExpr : ∀ e : Expr, e.asksAnew ≤ anew → (ofExpr here e).Within anew e.questions
  | .lit v, _ => by
    unfold ofExpr
    trivial
  | .template parts, h => by
    unfold ofExpr
    exact (within_ofTemplate parts h).bind_done fun v => trivial
  | .array items, h => by
    unfold ofExpr
    exact (within_ofExprs items h).bind_done fun vs => trivial
  | .object entries, h => by
    unfold ofExpr
    exact (within_ofEntries entries h).bind_done fun es => trivial
  | .ref parents steps, h => by
    unfold ofExpr
    exact within_ofReference parents steps h (Bool.false_le anew)
  | .fresh parents steps, h => by
    unfold ofExpr
    exact within_ofReference parents steps (Bool.le_trans (Bool.le_true _) h) h
  | .call name args, h => by
    unfold ofExpr
    exact (within_ofExprs args h).bind fun vs => within_callNamed name vs
  | .unary op operand, h => by
    unfold ofExpr
    exact (within_ofExpr operand h).bind_done fun v => within_lift _
  | .binary op left right, h => by
    unfold ofExpr
    exact (within_ofExpr left (left_le h)).bind fun l =>
      (within_ofExpr right (right_le h)).bind_done fun r => within_lift _
  | .logical op left right, h => by
    unfold ofExpr
    have hleft := within_ofExpr left (left_le h)
    have hrest (l : Value) : Within anew (if settles op l then pure l else ofExpr here right)
        right.questions := by
      split
      · trivial
      · exact within_ofExpr right (right_le h)
    cases op with
    | coalesce => exact hleft.orNull.bind hrest
    | and | or => exact hleft.bind hrest
  | .conditional condition yes no, h => by
    unfold ofExpr
    refine (within_ofExpr condition (left_le (left_le h))).bind fun c => ?_
    split
    · exact (within_ofExpr yes (right_le (left_le h))).mono (Nat.le_max_left _ _) (Bool.le_refl _)
    · exact (within_ofExpr no (right_le h)).mono (Nat.le_max_right _ _) (Bool.le_refl _)
  | .member object key, h => by
    unfold ofExpr
    exact (within_ofExpr object h).bind_done fun v => trivial
  | .index object index, h => by
    unfold ofExpr
    exact (within_ofExpr object (left_le h)).bind fun v =>
      (within_ofExpr index (right_le h)).bind_done fun i =>
        (within_lift (n := 0) _).bind_done fun key => trivial

theorem within_ofTemplate : ∀ parts : List Part, Part.asksAnewIn parts ≤ anew →
    (ofTemplate here parts).Within anew (Part.questionsOf parts)
  | [.span e], h => by
    unfold ofTemplate
    exact within_ofExpr e (left_le h)
  | [], h => by
    unfold ofTemplate
    exact (within_ofParts [] h).bind_done fun s => trivial
  | .text s :: rest, h => by
    unfold ofTemplate
    exact (within_ofParts (.text s :: rest) h).bind_done fun s => trivial
  | .span e :: part :: rest, h => by
    unfold ofTemplate
    exact (within_ofParts (.span e :: part :: rest) h).bind_done fun s => trivial

theorem within_ofParts : ∀ parts : List Part, Part.asksAnewIn parts ≤ anew →
    (ofParts here parts).Within anew (Part.questionsOf parts)
  | [], _ => by
    unfold ofParts
    trivial
  | .text s :: rest, h => by
    unfold ofParts
    exact (within_ofParts rest h).bind_done fun t => trivial
  | .span e :: rest, h => by
    unfold ofParts
    exact (within_ofExpr e (left_le h)).bind fun v =>
      (within_ofParts rest (right_le h)).bind_done fun t => trivial

theorem within_ofExprs : ∀ es : List Expr, Expr.asksAnewIn es ≤ anew →
    (ofExprs here es).Within anew (Expr.questionsOf es)
  | [], _ => by
    unfold ofExprs
    trivial
  | e :: rest, h => by
    unfold ofExprs
    exact (within_ofExpr e (left_le h)).bind fun v =>
      (within_ofExprs rest (right_le h)).bind_done fun vs => trivial

theorem within_ofEntries : ∀ entries : List (String × Expr), Expr.asksAnewInEntries entries ≤ anew →
    (ofEntries here entries).Within anew (Expr.questionsOfEntries entries)
  | [], _ => by
    unfold ofEntries
    trivial
  | (key, e) :: rest, h => by
    unfold ofEntries
    exact (within_ofExpr e (left_le h)).bind fun v =>
      (within_ofEntries rest (right_le h)).bind_done fun es => trivial

theorem within_ofSteps : ∀ steps : List RefStep, RefStep.asksAnewIn steps ≤ anew →
    (ofSteps here steps).Within anew (RefStep.questionsOf steps)
  | [], _ => by
    unfold ofSteps
    trivial
  | .key name :: rest, h => by
    unfold ofSteps
    exact (within_ofSteps rest h).bind_done fun segments => trivial
  | .at e :: rest, h => by
    unfold ofSteps
    refine (within_ofExpr e (left_le h)).bind fun v => ?_
    have hrest := within_ofSteps rest (right_le h)
    have hkey : (lift (indexKey v)).Within anew 0 := within_lift _
    have hcons := hkey.bind fun key =>
      hrest.bind_done (f := fun segments => .done (.ok (key :: segments))) fun segments => trivial
    rwa [Nat.zero_add] at hcons

theorem within_ofReference (parents : Nat) (steps : List RefStep)
    (h : RefStep.asksAnewIn steps ≤ anew) {fresh : Bool} (hf : fresh ≤ anew) :
    (ofReference here parents steps fresh).Within anew
      (RefStep.questionsOf steps + (steps.length + 1)) := by
  unfold ofReference
  split
  · trivial
  · refine (within_ofSteps steps h).bind_of_returns (returns_ofSteps steps) fun segments hl => ?_
    rw [← hl]
    exact within_follow parents segments hf

end

end Query

end LiveDoc

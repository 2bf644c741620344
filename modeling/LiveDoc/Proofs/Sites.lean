import LiveDoc.Proofs.Account

/-! # Located expressions

The plans of reads have only such expressions evaluated as a walk from the root has located.
-/

namespace LiveDoc

namespace Setting

/-- A walk leads to the expression. -/
def Locates (S : Setting) (site : Site) : Prop :=
  ∃ path, S.find path = .expression site

/-- What a walk leads to is told by its place. -/
def Coherent (S : Setting) : Prop :=
  ∀ site site', S.Locates site → S.Locates site' → site.path = site'.path → site.Same site'

end Setting

namespace Plan

variable {α β : Type} {S : Setting} {P : Site → Prop}

theorem Evaluates.mono {Q : Site → Prop} {p : Plan α} (h : p.Evaluates S P)
    (hPQ : ∀ site, P site → Q site) : p.Evaluates S Q := by
  induction p with
  | done result => exact trivial
  | find path next ih => exact ih _ h
  | evaluate site fresh next ih => exact ⟨hPQ site h.1, fun v => ih v (h.2 v)⟩
  | call name args next ih => exact fun v => ih v (h v)

theorem evaluates_pure (a : α) : (pure a : Plan α).Evaluates S P :=
  trivial

theorem evaluates_find {path : Path} {next : Found → Plan α}
    (h : (next (S.find path)).Evaluates S P) : (Plan.find path next).Evaluates S P :=
  h

theorem evaluates_bind {p : Plan α} {f : α → Plan β} (hp : p.Evaluates S P)
    (hf : ∀ a, (f a).Evaluates S P) : (p.bind f).Evaluates S P := by
  induction p with
  | done result =>
    cases result with
    | ok a => exact hf a
    | error fault => exact hp
  | find path next ih => exact ih _ hp
  | evaluate site fresh next ih => exact ⟨hp.1, fun v => ih v (hp.2 v)⟩
  | call name args next ih => exact fun v => ih v (hp v)

theorem evaluates_gather {item : α → Plan β} (h : ∀ a, (item a).Evaluates S P) (as : List α) :
    (gather item as).Evaluates S P := by
  induction as with
  | nil => exact evaluates_pure _
  | cons a rest ih =>
    exact evaluates_bind (h a) fun b => evaluates_bind ih fun bs => evaluates_pure _

theorem evaluates_descend (fresh : Bool) (levels : Nat) (path : Path) :
    (descend fresh levels (S.find path)).Evaluates S S.Locates := by
  induction levels generalizing path with
  | zero =>
    cases hf : S.find path with
    | missing => exact evaluates_pure _
    | scalar v => exact evaluates_pure _
    | mapping slots levels => exact evaluates_pure _
    | list items levels => exact evaluates_pure _
    | expression site => exact ⟨⟨path, hf⟩, fun v => evaluates_pure _⟩
  | succ levels ih =>
    cases hf : S.find path with
    | missing => exact evaluates_pure _
    | scalar v => exact evaluates_pure _
    | mapping slots levels =>
      refine evaluates_bind (evaluates_gather ?_ slots) fun members => evaluates_pure _
      rintro ⟨name, path⟩
      exact evaluates_bind (evaluates_find (ih path)) fun v => evaluates_pure _
    | list items levels =>
      refine evaluates_bind (evaluates_gather (fun path => ?_) items) fun values => evaluates_pure _
      exact evaluates_bind (evaluates_find (ih path)) fun v => evaluates_pure _
    | expression site => exact ⟨⟨path, hf⟩, fun v => evaluates_pure _⟩

theorem evaluates_resolve (fresh : Bool) (path : Path) :
    (resolve fresh path).Evaluates S S.Locates :=
  evaluates_descend fresh _ path

theorem evaluates_measure (path : Path) : (measure path).Evaluates S S.Locates := by
  unfold measure Evaluates
  cases hf : S.find path with
  | expression site =>
    refine ⟨⟨path, hf⟩, fun v => ?_⟩
    dsimp only
    split <;> exact evaluates_pure _
  | _ => exact evaluates_pure _

theorem evaluates_answer (q : Query α) : (answer q).Evaluates S S.Locates := by
  induction q with
  | done result => exact trivial
  | read path fresh next ih => exact evaluates_bind (evaluates_resolve fresh path) ih
  | measure path next ih => exact evaluates_bind (evaluates_measure path) ih
  | call name args next ih => exact ih

theorem evaluates_render (site : Site) : (render site).Evaluates S S.Locates := by
  unfold render
  split
  · exact trivial
  · exact evaluates_answer _

end Plan

end LiveDoc

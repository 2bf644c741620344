import LiveDoc.Proofs.KnownReads
import LiveDoc.Proofs.Parts
import LiveDoc.Proofs.Transparency
import Mathlib

/-! # Reads of a whole and of its parts

After a read of a path, a read that goes on from there gives the part of the value that was given.
-/

namespace LiveDoc

namespace Setting.FindsIn

variable {S : Setting} {document : Value} {base : Context} {path : Path} {q : List String}
  {fresh : Bool} {n : Nat} {a : Account (Option Value)}

/-- Reading on from a path comes to a part of what reading the path comes to. -/
theorem account_append (hS : S.FindsIn document base)
    (ha : (Plan.resolve fresh path).account S (S.account n) = some a)
    (hq : ∀ s ∈ q, isExact s = false ∧ s ≠ contextKey) (fresh' : Bool) :
    ∃ b, (Plan.resolve fresh' (path.append q)).account S (S.account n) = some b ∧ b.Part q a ∧
      (a.result = none → ∀ key ∈ b.uses, key ∈ a.uses) := by
  obtain ⟨c, hc, rfl⟩ := Plan.account_find.1 ha
  have hfind : S.find (path.append q) = .ofLocated ((locate document path base).further q) := by
    rw [hS, locate_append]
  rw [hS] at hc
  suffices h : ∃ b, (Found.plan fresh' (S.find (path.append q))).account S (S.account n) = some b ∧
      b.Part q c ∧ (c.result = none → ∀ key ∈ b.uses, key ∈ c.uses) by
    obtain ⟨b, hb, hpart, hu⟩ := h
    exact ⟨_, Plan.account_find.2 ⟨b, hb, rfl⟩, ⟨hpart.result, hpart.uses⟩, hu⟩
  rw [hfind]
  cases hl : locate document path base with
  | missing =>
    rw [hl] at hc
    cases hc
    exact ⟨_, rfl, ⟨rfl, fun _ _ hk => hk⟩, fun _ _ hk => hk⟩
  | expression site =>
    rw [hl] at hc
    obtain ⟨v, hv, d, hd, rfl⟩ := Plan.account_evaluate.1 hc
    cases hd
    have hsame : Site.Same { site with rest := site.rest ++ q } site := ⟨rfl, rfl, rfl⟩
    exact ⟨_, Plan.account_evaluate.2 ⟨v, (Setting.account_congr hsame n).trans hv, _, rfl, rfl⟩,
      ⟨Value.descend?_append v.result site.rest q, fun _ _ hk => hk⟩, fun _ _ hk => hk⟩
  | static place current context =>
    rw [hl] at hc
    have hplace := locate_place hl []
    rw [Path.append, List.append_nil] at hplace
    have hlevels : current.depth ≤ (Found.ofLocated (.static place current context)).levels := by
      cases current with
      | obj | arr => exact Nat.le_add_right _ _
      | _ => exact Nat.le_refl 0
    obtain ⟨b, hb, hpart⟩ := hS.account_part hplace hlevels hc hq fresh'
    have hsome := isSome_account hlevels hc
    exact ⟨b, hb, hpart, fun hnone => by simp [hnone] at hsome⟩

end Setting.FindsIn

namespace Tree

variable {σ : Type} {t t₁ t₂ : Tree σ} {f : String → List Value → Except String Value}
  {base base' path : Path} {text text' : String} {q : List String} {asked : ReadOptions}
  {r r' : ReadResult}

/-- A read that goes on from where another read has been gives the part of what that gave. -/
theorem Gives.part (hp : t.options.Pure f) (hi : t.inflight = [])
    (hf : t.world.cache.Faithful (t.setting f asked.own) True)
    (plain : asked.fresh = false) (bare : asked.fallback = none)
    (names : base.resolve text = .ok path) (onward : base'.resolve text' = .ok (path.append q))
    (hq : ∀ s ∈ q, isExact s = false ∧ s ≠ contextKey)
    (hg : t.Gives base text asked r t₁) (hg' : t₁.Gives base' text' asked r' t₂) :
    (r = .ok none → r' = .ok none) ∧
      ∀ v, r = .ok (some v) → (r' = .ok (v.descend? q) ∨ r'.IsTooDeep) ∧
        ((∀ s ∈ q, Numeral.Canonical s) → r' = .ok (v.descend? q)) := by
  have h := hg.answered hp hi hf
  have hS : t₁.setting f asked.own = t.setting f asked.own :=
    setting_congr (congrArg Options.registry h.options) h.document h.context _
  have hp₁ : t₁.options.Pure f := h.options ▸ hp
  have hf₁ : t₁.world.cache.Faithful (t₁.setting f asked.own) True :=
    hS ▸ hf.grows (t.setting_coherent f asked.own) h.grows
  have h' := hg'.answered hp₁ h.idle hf₁
  -- what is known of the second read by the account of the first
  have hpart {u : Option Value} (hu : r = .ok u) :
      ∃ b n, account? (t₁.setting f asked.own) n base' text' asked = some b ∧
        b.result = u.bind (·.descend? q) ∧
        ((u = none ∨ ∀ s ∈ q, Numeral.Canonical s) → r' = .ok (u.bind (·.descend? q))) := by
    obtain ⟨n, a, ha, rfl, hknown⟩ := h.ok u hu
    simp only [account?, names] at ha
    obtain ⟨b, hb, hresult, hnone⟩ := (t.setting_findsIn f asked.own).account_append ha hq asked.fresh
    have hb : account? (t₁.setting f asked.own) n base' text' asked = some b := by
      simpa only [account?, onward, hS] using hb
    rw [bare, Option.or_none]
    refine ⟨b, n, hb, hresult.result, fun hcase => ?_⟩
    have huses : ∀ key ∈ b.uses, key ∈ a.uses := by
      rcases hcase with hn | hc
      · exact hnone hn
      · exact hresult.uses hc
    have hr' := hg'.of_known hp₁ h.idle hf₁ plain hb fun key hk => hknown trivial key (huses key hk)
    rw [hr', bare, Option.or_none, hresult.result]
  refine ⟨fun hr => ?_, fun v hr => ?_⟩
  · obtain ⟨b, n, -, -, h⟩ := hpart hr
    exact h (.inl rfl)
  · obtain ⟨b, n, hb, hresult, h⟩ := hpart hr
    refine ⟨?_, fun hc => h (.inr hc)⟩
    rcases h'.deep n b hb with ⟨u, hu⟩ | ⟨hd, -⟩
    · obtain ⟨m, b', hb', rfl, -⟩ := h'.ok u hu
      obtain rfl := account?_unique hb hb'
      left
      rw [hu, bare, Option.or_none, hresult, Option.bind_some]
    · exact .inr hd

/-- On a new tree, a read that goes on from where a read has been gives nothing if that gave
nothing, and the part of its value otherwise: always where the indices of arrays are spelled by
their texts alone, and unless evaluations nest too deep in any spelling. -/
theorem reads_compose {document : Value} {options : Options σ} {host : σ} {t₀ : Tree σ}
    (hp : options.Pure f) (ha : options.Answers) (hnew : ofValue document options host = .ok t₀)
    (plain : asked.fresh = false) (bare : asked.fallback = none)
    (names : base.resolve text = .ok path) (onward : base'.resolve text' = .ok (path.append q))
    (hq : ∀ s ∈ q, isExact s = false ∧ s ≠ contextKey) :
    (∃ r t, t₀.Gives base text asked r t) ∧ ∀ r t, t₀.Gives base text asked r t →
      (∃ r' t', t.Gives base' text' asked r' t') ∧
      ∀ r' t', t.Gives base' text' asked r' t' → (r = .ok none → r' = .ok none) ∧
        ∀ v, r = .ok (some v) → (r' = .ok (v.descend? q) ∨ r'.IsTooDeep) ∧
          ((∀ s ∈ q, Numeral.Canonical s) → r' = .ok (v.descend? q)) := by
  obtain ⟨-, rfl⟩ := ofValue_eq_ok.1 hnew
  have hf : (ofDocument document options host).world.cache.Faithful
      ((ofDocument document options host).setting f asked.own) True :=
    ⟨Cache.timely_empty, fun _ _ hl => by cases hl⟩
  refine ⟨exists_gives (t := ofDocument document options host) ha rfl base text asked,
    fun r t hg => ?_⟩
  have h := hg.answered hp rfl hf
  exact ⟨exists_gives (h.options ▸ ha) h.idle base' text' asked,
    fun r' t' hg' => hg.part hp rfl hf plain bare names onward hq hg'⟩

/-- An item of two expressions, of which one needs the other. -/
def stairs : Value :=
  .obj [("x", .arr [.obj [(".a", .str "${1}"), (".b", .str "${a}")]])]

/-- One expression at a time. -/
def shallow : Options Unit :=
  { Options.default with maxDepth := 1 }

theorem stairs_read : ((ofDocument stairs shallow ()).get .root "x" .default).2 =
    some (.ok (some (.arr [.obj [("a", .num (.int 1)), ("b", .num (.int 1))]]))) := by
  cbv

/-- After the whole array was read, its second expression is read where it could not be
evaluated. -/
theorem stairs_item_read : ∃ r t, (ofDocument stairs shallow ()).Gives .root "x" .default r t ∧
    (∃ r' t', t.Gives .root "x.0.b" .default r' t') ∧
    ∀ r' t', t.Gives .root "x.0.b" .default r' t' → r' = .ok (some (.num (.int 1))) := by
  have hp : shallow.Pure fun _ _ => .ok .null := ⟨rfl, nofun⟩
  have hg := gives_of_get (Prod.ext rfl stairs_read)
  have hnames : Path.root.resolve "x" = .ok ⟨["x"]⟩ := by decide
  have honward : Path.root.resolve "x.0.b" = .ok (Path.append ⟨["x"]⟩ ["0", "b"]) := by decide
  have hq : ∀ s ∈ ["0", "b"], isExact s = false ∧ s ≠ contextKey := by decide
  have hcanonical : ∀ s ∈ ["0", "b"], Numeral.Canonical s := by
    intro s hs i hi
    rcases List.mem_pair.1 hs with rfl | rfl
    · obtain rfl : 0 = i := Option.some.inj hi
      rfl
    · cases hi
  have hnew : ofValue stairs shallow () = .ok (ofDocument stairs shallow ()) := rfl
  obtain ⟨hends, h⟩ := (reads_compose hp nofun hnew rfl rfl hnames honward hq).2 _ _ hg
  exact ⟨_, _, hg, hends, fun r' t' hg' => ((h r' t' hg').2 _ rfl).2 hcanonical⟩

/-- With its index spelled in another way, the same expression is kept nowhere and nests too
deep. -/
theorem stairs_respelled : let t := ((ofDocument stairs shallow ()).get .root "x" .default).1
    (t.get .root "x.0.b" .default).2 = some (.ok (some (.num (.int 1)))) ∧
    (t.get .root "x.00.b" .default).2 = some (.error (.depth 1 ⟨["x", "00", ".a"]⟩)) := by
  refine ⟨?_, ?_⟩
  · cbv
  · cbv

end Tree

end LiveDoc

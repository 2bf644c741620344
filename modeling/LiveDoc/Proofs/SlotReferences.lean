import LiveDoc.Proofs.ReferenceQueries
import Mathlib

/-! # References and nodes

A reference is a path seen from the mapping that owns its expression. A read of the same path from that
mapping climbs before it walks, the reference cuts the place of its owner; both come to the same slot.
-/

namespace LiveDoc

variable {σ : Type}

namespace Path

/-- Climbing cuts a place as long as there is something to cut. -/
theorem follow?_climbing {names : List String} (h : ∀ s ∈ names, s ≠ parentSegment) (k : Nat)
    (place : List String) :
    follow? place (List.replicate k parentSegment ++ names) =
      if k ≤ place.length then some (place.take (place.length - k) ++ names) else none := by
  induction k generalizing place with
  | zero =>
    rw [if_pos (Nat.zero_le _), Nat.sub_zero, List.take_length]
    exact follow?_plain h place
  | succ k ih =>
    rw [List.replicate_succ, List.cons_append, follow?, if_pos rfl]
    cases place using List.reverseRecOn with
    | nil => rfl
    | append_singleton front last =>
      have hne : (front ++ [last]).isEmpty = false := by simp
      have hlength : front.length + 1 - (k + 1) = front.length - k := Nat.add_sub_add_right ..
      rw [hne, if_neg Bool.false_ne_true, List.dropLast_concat, ih, List.length_append,
        List.length_singleton, hlength, List.take_append_of_le_length (Nat.sub_le _ _)]
      simp

/-- What a text with markers in front names, seen from a place. -/
theorem resolve_climbing {names : List String} (h : ∀ s ∈ names, s ≠ parentSegment) {k : Nat}
    {text : String} (hp : parse text = .ok ⟨List.replicate k parentSegment ++ names⟩) (base : Path) :
    (k ≤ base.length → base.resolve text = .ok ((base.take (base.length - k)).append names)) ∧
      (base.length < k → base.resolve text =
        .error (.aboveRoot (Path.text ⟨List.replicate k parentSegment ++ names⟩))) := by
  have hresolve : base.resolve text = base.join ⟨List.replicate k parentSegment ++ names⟩ := by
    rw [resolve, hp]
    rfl
  rw [hresolve, join, follow?_climbing h]
  constructor
  · intro hk
    rw [if_pos (show k ≤ base.segments.length from hk)]
    rfl
  · intro hk
    rw [if_neg (show ¬ k ≤ base.segments.length from Nat.not_le_of_lt hk)]

end Path

/-! ## Expressions that are one reference -/

namespace Query

variable {S : Setting} {here : Standpoint} {k : Nat} {names : List String} {fresh : Bool}

theorem comesTo_steps_keys (names : List String) : (ofSteps here (names.map .key)).ComesTo S names := by
  rw [ofSteps_names]
  exact comesTo_done.2 rfl

theorem fails_aboveRoot (here : Standpoint) {steps : List RefStep} (habove : here.owner.length < k) :
    (ofReference here k steps fresh).Fails S (.new (.aboveRoot (climbText k here.owner))) := by
  rw [ofReference, if_pos habove]
  exact fails_error

/-- A reference comes to every value that a reading of its target comes to. -/
theorem comesTo_names (hclimbs : k ≤ here.owner.length)
    (hplain : ¬ (k = 0 ∧ names.head? = some contextKey)) {v : Value}
    (h : S.Reads (target here k names) (some v)) :
    (ofReference here k (names.map .key) fresh).ComesTo S v := by
  rw [ofReference_of_le hclimbs]
  refine comesTo_bind.2 ⟨names, comesTo_steps_keys names, ?_⟩
  rw [follow_target hplain]
  exact comesTo_read.2 ⟨_, h, comesTo_done.2 rfl⟩

end Query

namespace Tree

variable {document : Value} {options : Options σ} {host : σ}
  {f : String → List Value → Except String Value} {base : Path} {text climbing : String}
  {asked : ReadOptions} {site : Site} {k : Nat} {names : List String} {fresh : Bool}

/-- A tree over a document has as many evaluations to nest as it has expressions. -/
def Roomy (document : Value) (options : Options σ) : Prop :=
  (expressionPaths document).length ≤ options.maxDepth

theorem Roomy.not_overdeep (h : Roomy document options) (r : ReadResult) :
    ¬ (ofDocument document options host).Overdeep r :=
  fun hdeep => Nat.not_lt_of_le h hdeep.2

theorem faithful_new (document : Value) (options : Options σ) (host : σ)
    (f : String → List Value → Except String Value) (context : Context) :
    (ofDocument document options host).world.cache.Faithful
      ((ofDocument document options host).setting f context) True :=
  ⟨Cache.timely_empty, fun _ _ hl => by cases hl⟩

/-- A reference with markers and plain names comes to what its owner reads under them. Where it climbs
above the root, both the expression and the reading fail; else, on new trees over a document with no more
expressions than may nest, the expression comes to every value that the reading gives. -/
theorem reference_names_slot (hp : options.Pure f) (ha : options.Answers)
    (hroom : Roomy document options)
    (hasks : (ofDocument document options host).Asks base text asked site
      (.reference fresh k (names.map .key)))
    (plain : ∀ s ∈ names, s ≠ parentSegment) (hreserved : ¬ (k = 0 ∧ names.head? = some contextKey))
    (hclimbing : Path.parse climbing = .ok ⟨List.replicate k parentSegment ++ names⟩) :
    let t := ofDocument document options host
    (∃ r t', t.Gives base text asked r t') ∧ (∃ r t', t.Gives site.owner climbing asked r t') ∧
      (site.owner.length < k →
        (∀ r t', t.Gives base text asked r t' →
          r = .error (.aboveRoot (Query.climbText k site.owner))) ∧
        ∀ r t', t.Gives site.owner climbing asked r t' →
          r = .error (.aboveRoot (Path.text ⟨List.replicate k parentSegment ++ names⟩))) ∧
      (k ≤ site.owner.length → ∀ v t₁, t.Gives site.owner climbing asked (.ok (some v)) t₁ →
        ∀ r t₂, t.Gives base text asked r t₂ → r = .ok (some v)) := by
  intro t
  have hclimb := Path.resolve_climbing plain hclimbing site.owner
  have hf := faithful_new document options host f asked.own
  refine ⟨exists_gives ha rfl _ _ _, exists_gives ha rfl _ _ _, fun hk => ⟨fun r t' hg => ?_,
    fun r t' hg => ?_⟩, fun hk v t₁ hnode r t₂ hg => ?_⟩
  · refine (hasks.fails hp rfl hf ?_ hg).resolve_right (hroom.not_overdeep r)
    rw [Query.ofExpr_reference]
    exact Query.fails_aboveRoot ⟨site.owner, site.context⟩ hk
  · rcases hg.cases rfl with ⟨e, herror, rfl, -⟩ | ⟨path', hpath, -⟩
    · rw [hclimb.2 hk] at herror
      cases herror
      rfl
    · rw [hclimb.2 hk] at hpath
      cases hpath
  · obtain ⟨n, a, ha, hv, -⟩ := (hnode.answered hp rfl hf).ok _ rfl
    rw [hasks.bare, Option.or_none] at hv
    simp only [account?, hclimb.1 hk] at ha
    rw [Plan.account_resolve_eq _ false] at ha
    have hread : (t.setting f asked.own).Reads (Query.target ⟨site.owner, site.context⟩ k names)
        (some v) := ⟨n, a, ha, hv.symm⟩
    refine (hasks.shows hp rfl hf ?_ hg).resolve_right (hroom.not_overdeep r)
    rw [Query.ofExpr_reference]
    exact Query.comesTo_names hk hreserved hread

/-- An item of a Spanish menu that is labelled like the root says. -/
def labelled : Value :=
  .obj [("h", .str "Casa"), ("m:es", .obj [("l", .arr [.obj [(".t", .str "${^.^.^.h}")]])])]

def speakingSpanish : Options Unit :=
  { (Options.default : Options Unit) with context := .ofList [("lang", "es")] }

def label : Site :=
  ⟨⟨["m:es", "l", "0", ".t"]⟩, "${^.^.^.h}", .ofList [("lang", "es")], []⟩

theorem locate_label : locate labelled ⟨["m", "l", "0", "t"]⟩
    (speakingSpanish.context.merge ReadOptions.default.own) = .expression label := by
  cbv

theorem home_from_item : ((ofDocument labelled speakingSpanish ()).get label.owner "^.^.^.h"
    .default).2 = some (.ok (some (.str "Casa"))) := by
  cbv

/-- The label is read three levels above the item that owns it. -/
theorem label_names_home :
    (∃ r t, (ofDocument labelled speakingSpanish ()).Gives .root "m.l.0.t" .default r t) ∧
      ∀ r t, (ofDocument labelled speakingSpanish ()).Gives .root "m.l.0.t" .default r t →
        r = .ok (some (.str "Casa")) := by
  have hp : speakingSpanish.Pure fun _ _ => .ok .null := ⟨rfl, nofun⟩
  have ha : speakingSpanish.Answers := nofun
  have hbase : Path.root.resolve "m.l.0.t" = .ok ⟨["m", "l", "0", "t"]⟩ := by
    decide
  have hlength : (expressionPaths labelled).length = 1 := rfl
  have hroom : Roomy labelled speakingSpanish := hlength.trans_le (by decide)
  have ht : Template.parse label.text = .ok [.span (.reference false 3 (["h"].map .key))] := by cbv
  have hasks : (ofDocument labelled speakingSpanish ()).Asks .root "m.l.0.t" .default label
      (.reference false 3 (["h"].map .key)) := ⟨rfl, ⟨_, hbase, locate_label⟩, rfl, ht⟩
  have hclimbing : Path.parse "^.^.^.h" =
      .ok ⟨List.replicate 3 parentSegment ++ ["h"]⟩ := by decide
  have hnode := gives_of_get (Prod.ext rfl home_from_item)
  obtain ⟨hends, -, -, hnames⟩ :=
    reference_names_slot hp ha hroom hasks (by decide) (by decide) hclimbing
  exact ⟨hends, hnames (by decide) _ _ hnode⟩

end Tree

end LiveDoc

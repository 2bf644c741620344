import LiveDoc.Proofs.Moments
import LiveDoc.Proofs.Reading
import LiveDoc.Proofs.Traffic

/-! # Reads stop

Every read ends, however many others are under way and whatever was written before. At every moment
of it the expressions that wait for one another are different and no more than the limit, and
whatever is called for is less than what calls for it.
-/

namespace LiveDoc

variable {σ α : Type}

/-- Only finitely many polls are left, in whatever worlds they take place. -/
def Progress.Finishes : Progress σ α → Prop
  | .finished _ => True
  | .waiting call next => ∀ w, (call.poll next w).Finishes

namespace Progress

variable {p : Progress σ α}

theorem finishes_ofStep {s : Step σ α} (h : s.Finishes) : (Progress.ofStep s).Finishes := by
  cases h with
  | done => exact trivial
  | wait polled => exact polled

theorem Finishes.poll (h : p.Finishes) (w : World σ) : (p.poll w).Finishes := by
  cases p with
  | finished result => exact .done result w
  | waiting call next => exact h w

end Progress

namespace Tree

/-- Whatever reads share ends when it is polled again and again. -/
def Finishing (t : Tree σ) : Prop :=
  ∀ p ∈ t.shared, p.Finishes

variable {t t' : Tree σ}

namespace Finishing

theorem keepShared (h : t.Finishing) {step : Step σ ReadResult} (hs : step.Finishes) (n : Nat) :
    (t.keepShared n step).Finishing := by
  intro p hp
  rw [(keepShared_eq t n step).2.2] at hp
  rcases List.mem_or_eq_of_mem_set hp with hp | rfl
  · exact h p hp
  · exact Progress.finishes_ofStep hs

theorem pollShared (h : t.Finishing) (n : Nat) : (t.pollShared n).Finishing := by
  unfold Tree.pollShared
  cases hp : t.shared[n]? with
  | none => exact h
  | some p => exact h.keepShared ((h p (List.mem_of_getElem? hp)).poll t.world) n

theorem opening (h : t.Finishing) {step : Step σ ReadResult} (hs : step.Finishes) (key : ReadKey) :
    (t.opening key step).Finishing := by
  intro p hp
  rcases List.mem_append.1 hp with hp | hp
  · exact h p hp
  · rw [List.mem_singleton.1 hp]
    exact Progress.finishes_ofStep hs

theorem start (h : t.Finishing) (ha : t.options.Answers) (base : Path) (text : String)
    (asked : ReadOptions) : (t.start base text asked).1.Finishing := by
  rcases t.start_cases base text asked with
    ⟨e, -, hs⟩ | ⟨path, -, ⟨-, step, -, hs⟩ | ⟨-, ⟨n, -, hs⟩ | ⟨-, step, rfl, hs⟩⟩⟩ <;> rw [hs]
  · exact h
  · exact h
  · exact h.pollShared n
  · have hread := (t.request asked).finishes_read ha path false t.world
    exact (h.opening hread _).keepShared hread _

theorem poll (h : t.Finishing) (reading : Reading σ) : (t.poll reading).1.Finishing := by
  cases reading with
  | alone p => exact h
  | joined n => exact h.pollShared n

/-- Every read ends, also one that joins an evaluation under way. -/
theorem exists_gives (h : t.Finishing) (ho : t.Orderly) (ha : t.options.Answers) (base : Path)
    (text : String) (asked : ReadOptions) : ∃ r t', t.Gives base text asked r t' := by
  have hread (path : Path) (fresh : Bool) :=
    (t.request asked).finishes_read ha path fresh t.world
  unfold Gives
  rcases t.start_cases base text asked with
    ⟨e, -, hs⟩ | ⟨path, -, ⟨-, step, rfl, hs⟩ | ⟨-, ⟨n, hl, hs⟩ | ⟨-, step, hstep, hs⟩⟩⟩ <;> rw [hs]
  · exact ⟨_, t, 0, rfl⟩
  · obtain ⟨n, t', r, hn⟩ := settle_alone_of_finishes (hread path true) _
    exact ⟨r, t', n, hn⟩
  · have hlt : n < t.shared.length :=
      ((ho.unended n).1 (List.mem_map_of_mem (Assoc.mem_of_lookup hl))).1
    obtain ⟨p, hp⟩ : ∃ p, t.shared[n]? = some p := ⟨_, List.getElem?_eq_getElem hlt⟩
    have hfin := (h p (List.mem_of_getElem? hp)).poll t.world
    have hpolled : (t.pollShared n).shared[n]? = some (.ofStep (p.poll t.world)) := by
      simp only [Tree.pollShared, hp]
      rw [(keepShared_eq t n _).2.2, List.getElem?_set_self hlt]
    obtain ⟨k, t', r, hk⟩ := settle_joined_of_finishes hfin hpolled
    exact ⟨r, t', k, hk⟩
  · have hfin : step.Finishes := hstep ▸ hread path false
    have hnew : ((t.opening (t.readKey path asked) step).keepShared t.shared.length step).shared[
        t.shared.length]? = some (.ofStep step) := by
      rw [shared_opened, List.getElem?_concat_length]
    obtain ⟨k, t', r, hk⟩ := settle_joined_of_finishes hfin hnew
    exact ⟨r, t', k, hk⟩

end Finishing

theorem options_pollShared (t : Tree σ) (n : Nat) : (t.pollShared n).options = t.options :=
  (t.pollShared_frame n).1

theorem options_start (t : Tree σ) (base : Path) (text : String) (asked : ReadOptions) :
    (t.start base text asked).1.options = t.options := by
  rcases t.start_cases base text asked with
    ⟨e, -, hs⟩ | ⟨path, -, ⟨-, step, -, hs⟩ | ⟨-, ⟨n, -, hs⟩ | ⟨-, step, -, hs⟩⟩⟩ <;> rw [hs]
  · exact t.options_pollShared n
  · exact (keepShared_eq _ _ step).1

theorem options_poll (t : Tree σ) (reading : Reading σ) : (t.poll reading).1.options = t.options := by
  cases reading with
  | alone p => rfl
  | joined n => exact t.options_pollShared n

end Tree

namespace Traffic

variable {s : Traffic σ}

theorem options_act (s : Traffic σ) (a : Act σ) : (s.act a).tree.options = s.tree.options := by
  rcases s.act_cases a with ⟨base, text, asked, rfl⟩ | ⟨place, rfl⟩ | ⟨-, h⟩
  · exact s.tree.options_start base text asked
  · simp only [act]
    split
    · rfl
    · exact s.tree.options_poll _
  · exact h.options

theorem options_run (s : Traffic σ) (acts : List (Act σ)) :
    (s.run acts).tree.options = s.tree.options := by
  induction acts generalizing s with
  | nil => rfl
  | cons a rest ih => exact (ih (s.act a)).trans (s.options_act a)

theorem finishing_act (ha : s.tree.options.Answers) (h : s.tree.Finishing) (a : Act σ) :
    (s.act a).tree.Finishing := by
  rcases s.act_cases a with ⟨base, text, asked, rfl⟩ | ⟨place, rfl⟩ | ⟨-, hb⟩
  · exact h.start ha base text asked
  · simp only [act]
    split
    · exact h
    · exact h.poll _
  · intro p hp
    exact h p (hb.shared ▸ hp)

theorem finishing_run (ha : s.tree.options.Answers) (h : s.tree.Finishing) (acts : List (Act σ)) :
    (s.run acts).tree.Finishing := by
  induction acts generalizing s with
  | nil => exact h
  | cons a rest ih => exact ih ((s.options_act a).symm ▸ ha) (finishing_act ha h a)

/-- With resolvers that answer, whatever the hook decides and however low the limit: in every state
of a tree every read ends. At every moment of a read the expressions that wait are different and no
more than the limit, nothing is counted down too far, and everything that is called for is less: it
has begun another evaluation, or has fewer questions of the expression left, or lies deeper in the
document. So every errand of a read comes to an end by itself. -/
theorem reads_stop (document : Value) (options : Options σ) (ha : options.Answers) (host : σ)
    (before : List (Act σ)) (base : Path) (text : String) (asked : ReadOptions) :
    let s := (idle (Tree.ofDocument document options host)).run before
    let request := s.tree.request asked
    (∃ r t', s.tree.Gives base text asked r t') ∧
    ∀ path, base.resolve text = .ok path →
      ∀ m, request.Reaches (request.opening path asked.fresh s.tree.world) m →
        (m.stack.map (·.path)).Nodup ∧ m.stack.length ≤ options.maxDepth ∧ request.Sound m ∧
        (∀ m', request.Calls m m' → request.Descends m m' ∧ request.rank m' < request.rank m) ∧
        request.HaltsAt m := by
  intro s request
  have hoptions : s.tree.options = options := options_run _ before
  have ha' : s.tree.options.Answers := hoptions.symm ▸ ha
  constructor
  · have horderly : s.Orderly := (Orderly.idle (.ofDocument document options host) rfl).run before
    have hfinishing : s.tree.Finishing :=
      finishing_run (s := idle (Tree.ofDocument document options host)) ha (fun _ hp => nomatch hp)
        before
    exact hfinishing.exists_gives horderly.tree ha' base text asked
  · intro path _ m hm
    have hsound : request.Sound m := (request.sound_opening path asked.fresh _).reaches hm
    refine ⟨hsound.distinct, ?_, hsound, fun m' hc => ?_, hsound.halts ha'⟩
    · calc m.stack.length ≤ m.left + m.stack.length := Nat.le_add_left _ _
        _ = s.tree.options.maxDepth := hsound.budget
        _ = options.maxDepth := congrArg Options.maxDepth hoptions
    · obtain ⟨hd, -⟩ := hsound.calls hc
      exact ⟨hd, hd.rank_lt⟩

/-- Two expressions that have one another evaluated anew. -/
def knot : Value :=
  .obj [(".a", .str "${fresh(b)}"), (".b", .str "${[a, fresh(a)]}")]

/-- At most two evaluations nest, and a number stands in for every failure. -/
def standingIn : Options Unit :=
  { (Options.default : Options Unit) with
    maxDepth := 2
    onError := some fun _ _ => .substitute (.num (.int 0)) }

/-- The hook lets the evaluation of the knot go on, and it ends all the same. -/
theorem knot_stops : (∃ r t', (Tree.ofDocument knot standingIn ()).Gives .root "a" .default r t') ∧
    ∀ m, ((Tree.ofDocument knot standingIn ()).request .default).Reaches
      (((Tree.ofDocument knot standingIn ()).request .default).opening ⟨["a"]⟩ false
        (Tree.ofDocument knot standingIn ()).world) m → m.stack.length ≤ 2 := by
  obtain ⟨hends, hmoments⟩ := reads_stop knot standingIn nofun () [] .root "a" .default
  have hresolve : Path.root.resolve "a" = .ok ⟨["a"]⟩ := by cbv
  exact ⟨hends, fun m hm => (hmoments ⟨["a"]⟩ hresolve m hm).2.1⟩

end Traffic

end LiveDoc

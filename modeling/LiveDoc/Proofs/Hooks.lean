import LiveDoc.Proofs.Logbook
import LiveDoc.Proofs.Runs

/-! # Runs with a hook

Whatever a hook answers, a run leaves the document, the context and the stamps as they are, and it
comes back to the evaluations among which it began. As long as the hook is told of nothing, what
could be kept still can be. Once a value has stood in for a failure, nothing that waits for it can.
-/

namespace LiveDoc

variable {σ α β : Type}

namespace Stack

/-- No result that is waited for may be kept. -/
def Tainted (s : Stack) : Prop :=
  ∀ frame ∈ s, frame.keepable = false

variable {s s' : Stack}

theorem tainted_taint (s : Stack) : s.taint.Tainted := by
  intro frame hf
  obtain ⟨f, -, rfl⟩ := List.mem_map.1 hf
  rfl

theorem tainted_congr (h : s'.map (·.keepable) = s.map (·.keepable)) : s'.Tainted ↔ s.Tainted := by
  have hkeep (s : Stack) : s.Tainted ↔ ∀ b ∈ s.map (·.keepable), b = false := by
    simp [Tainted]
  rw [hkeep, hkeep, h]

theorem map_path_taint (s : Stack) : s.taint.map (·.path) = s.map (·.path) := by
  simp [taint]

theorem map_path_record (s : Stack) (slots : List Path) :
    (s.record slots).map (·.path) = s.map (·.path) := by
  cases s <;> rfl

theorem map_keepable_record (s : Stack) (slots : List Path) :
    (s.record slots).map (·.keepable) = s.map (·.keepable) := by
  cases s <;> rfl

theorem map_path_pop (s : Stack) : (Stack.pop s).map (·.path) = (s.map (·.path)).tail := by
  match s with
  | [] | [_] | _ :: _ :: _ => rfl

/-- Leaving an evaluation whose result may be kept leaves the others as they are. -/
theorem map_keepable_pop {f : Frame} (hf : f.keepable = true) (rest : Stack) :
    (Stack.pop (f :: rest)).map (·.keepable) = rest.map (·.keepable) := by
  cases rest with
  | nil => rfl
  | cons g rest => simp [pop, Frame.absorb, hf]

theorem Tainted.pop (h : s.Tainted) : (Stack.pop s).Tainted := by
  match s with
  | [] | [_] => nofun
  | f :: g :: rest =>
    obtain ⟨hf, hrest⟩ := List.forall_mem_cons.1 h
    obtain ⟨hg, hrest⟩ := List.forall_mem_cons.1 hrest
    refine List.forall_mem_cons.2 ⟨?_, hrest⟩
    simp [Frame.absorb, hf]

end Stack

namespace Request

/-- What holds of every run of a request. -/
structure Steady (request : Request σ) (stack : Stack) (w : World σ) (r : Except Fault α)
    (stack' : Stack) (w' : World σ) : Prop where
  document : w'.document = w.document
  context : w'.context = w.context
  epoch : w'.cache.epoch = w.cache.epoch
  timely : w.cache.Timely → w'.cache.Timely
  paths : stack'.map (·.path) = stack.map (·.path)
  reports : w.reports <+: w'.reports
  unheard : request.options.onError = none → w'.reports = w.reports
  /-- Where the hook is told of nothing, as many results may be kept. -/
  silent : w'.reports = w.reports → stack'.map (·.keepable) = stack.map (·.keepable)
  /-- Where it was told of something and the run goes on all the same, none may be kept. -/
  told : w'.reports ≠ w.reports → (∃ v, r = .ok v) → stack'.Tainted

variable {request : Request σ} {stack s stack' : Stack} {w v w' : World σ} {r : Except Fault α}
  {r' : Except Fault β}

/-- What is silent as a whole is silent in its parts. -/
theorem silent_of_prefix (h : w.reports <+: v.reports) (h' : v.reports <+: w'.reports)
    (hr : w'.reports = w.reports) : v.reports = w.reports :=
  (h.eq_of_length (Nat.le_antisymm h.length_le (hr ▸ h'.length_le))).symm

namespace Steady

/-- A run that does nothing to the cache and tells nothing is steady. -/
theorem of_eq (hd : w'.document = w.document) (hc : w'.context = w.context)
    (hcache : w'.cache = w.cache) (hr : w'.reports = w.reports)
    (hp : stack'.map (·.path) = stack.map (·.path))
    (hk : stack'.map (·.keepable) = stack.map (·.keepable)) : request.Steady stack w r stack' w' where
  document := hd
  context := hc
  epoch := congrArg Cache.epoch hcache
  timely ht := hcache ▸ ht
  paths := hp
  reports := hr ▸ List.prefix_refl _
  unheard _ := hr
  silent _ := hk
  told h := absurd hr h

theorem refl (stack : Stack) (w : World σ) (r : Except Fault α) :
    request.Steady stack w r stack w :=
  of_eq rfl rfl rfl rfl rfl rfl

theorem record (stack : Stack) (slots : List Path) (w : World σ) (r : Except Fault α) :
    request.Steady stack w r (stack.record slots) w :=
  of_eq rfl rfl rfl rfl (stack.map_path_record slots) (stack.map_keepable_record slots)

theorem host (stack : Stack) (w : World σ) (host : σ) (r : Except Fault α) :
    request.Steady stack w r stack { w with host := host } :=
  of_eq rfl rfl rfl rfl rfl rfl

/-- A run that goes on in silence from a failure fails. -/
theorem trans (h : request.Steady stack w r s v) (h' : request.Steady s v r' stack' w')
    (hok : w'.reports = v.reports → (∃ b, r' = .ok b) → ∃ a, r = .ok a) :
    request.Steady stack w r' stack' w' where
  document := h'.document.trans h.document
  context := h'.context.trans h.context
  epoch := h'.epoch.trans h.epoch
  timely := h'.timely ∘ h.timely
  paths := h'.paths.trans h.paths
  reports := h.reports.trans h'.reports
  unheard hn := (h'.unheard hn).trans (h.unheard hn)
  silent hr := by
    have hv : v.reports = w.reports := silent_of_prefix h.reports h'.reports hr
    exact (h'.silent (hr.trans hv.symm)).trans (h.silent hv)
  told hr hr' := by
    by_cases hlast : w'.reports = v.reports
    · exact (Stack.tainted_congr (h'.silent hlast)).2
        (h.told (hlast ▸ hr) (hok hlast hr'))
    · exact h'.told hlast hr'

theorem after {a : α} (h : request.Steady stack w (.ok a : Except Fault α) s v)
    (h' : request.Steady s v r' stack' w') : request.Steady stack w r' stack' w' :=
  h.trans h' fun _ _ => ⟨a, rfl⟩

/-- Another failure instead changes nothing. -/
theorem error {fault fault' : Fault}
    (h : request.Steady stack w (.error fault : Except Fault α) stack' w') :
    request.Steady stack w (.error fault' : Except Fault β) stack' w' :=
  h.trans (refl stack' w' _) fun _ ⟨_, hb⟩ => nomatch hb

end Steady

theorem Recovered.steady {error : EvalError} {path : Path} {r : Except Fault Value}
    (h : Recovered request error path stack w r stack' w') : request.Steady stack w r stack' w' := by
  have hmore : w.reports ++ [⟨error, path⟩] ≠ w.reports := by simp
  cases h with
  | unheard => exact .refl _ _ _
  | raised present =>
    exact ⟨rfl, rfl, rfl, id, rfl, List.prefix_append _ _, fun hn => absurd hn present,
      fun hr => absurd hr hmore, fun _ h => nomatch h⟩
  | replaced present value =>
    exact ⟨rfl, rfl, rfl, id, stack.map_path_taint, List.prefix_append _ _,
      fun hn => absurd hn present, fun hr => absurd hr hmore, fun _ _ => stack.tainted_taint⟩

theorem Recovered.cache_eq {error : EvalError} {path : Path} {r : Except Fault Value}
    (h : Recovered request error path stack w r stack' w') : w'.cache = w.cache := by
  cases h <;> rfl

/-- In silence no value stands in for a failure. -/
theorem Recovered.not_ok {error : EvalError} {path : Path} {value : Value}
    (h : Recovered request error path stack w (.ok value) stack' w') : w'.reports ≠ w.reports := by
  cases h
  simp [World.told]

/-- Every evaluation is steady. -/
def Steadily (request : Request σ) (evaluate : Evaluator σ) : Prop :=
  ∀ site fresh stack w r stack' w', (evaluate site fresh).Runs stack w r stack' w' →
    request.Steady stack w r stack' w'

theorem follow_steady {evaluate : Evaluator σ} (hev : request.Steadily evaluate) {p : Plan α}
    (h : (request.follow evaluate p).Runs stack w r stack' w') :
    request.Steady stack w r stack' w' := by
  induction p generalizing stack w with
  | done result =>
    obtain ⟨rfl, rfl, rfl⟩ := Task.runs_pure_iff.1 h
    exact .refl _ _ _
  | find path next ih =>
    exact (Steady.record stack _ w (.ok ())).after (ih _ (runs_follow_find h))
  | evaluate site fresh next ih =>
    rcases runs_follow_evaluate h with ⟨fault, rfl, hsite⟩ | ⟨value, s, v, hsite, h⟩
    · exact (hev site fresh _ _ _ _ _ hsite).error
    · exact (hev site fresh _ _ _ _ _ hsite).after (ih value h)
  | call name args next ih =>
    rcases runs_follow_call h with ⟨fault, rfl, hcall⟩ | ⟨value, s, v, hcall, h⟩
    · obtain ⟨rfl, host, rfl⟩ := runs_call_frame hcall
      exact .host _ w host _
    · obtain ⟨rfl, host, rfl⟩ := runs_call_frame hcall
      exact (Steady.host s w host (.ok value)).after (ih value h)

/-- The frame of the evaluation itself is on top when its template has been run. -/
theorem Steady.top {path : Path} (h : request.Steady (.enter path :: stack) w r s v) :
    ∃ frame rest, s = frame :: rest ∧ rest.map (·.path) = stack.map (·.path) := by
  obtain ⟨frame, rest, rfl, -, hrest⟩ := List.map_eq_cons_iff.1 h.paths
  exact ⟨frame, rest, rfl, hrest⟩

theorem timely_store {site : Site} {epoch : Nat} {result : Except Fault Value} {frames : Stack}
    {c : Cache} (hc : c.Timely) (he : epoch = c.epoch) :
    (store site epoch result frames c).Timely := by
  rcases store_cases site epoch result frames c with hs | ⟨value, reads, -, hs⟩
  · rwa [hs]
  · rw [hs]
    exact hc.insert _ (Nat.le_of_eq he)

theorem epoch_store (site : Site) (epoch : Nat) (result : Except Fault Value) (frames : Stack)
    (c : Cache) : (store site epoch result frames c).epoch = c.epoch := by
  rcases store_cases site epoch result frames c with hs | ⟨value, reads, -, hs⟩ <;> rw [hs]
  rfl

theorem compute_steady {evaluate : Evaluator σ} (hev : request.Steadily evaluate) {site : Site}
    {r : Except Fault Value} (h : (request.compute evaluate site).Runs stack w r stack' w') :
    request.Steady stack w r stack' w' := by
  obtain ⟨s, v, hrun, rfl, rfl⟩ := runs_compute h
  have hv := follow_steady hev hrun
  have hepoch : v.cache.epoch = w.cache.epoch := hv.epoch
  obtain ⟨frame, rest, rfl, hrest⟩ := hv.top
  constructor
  · exact hv.document
  · exact hv.context
  · exact (epoch_store ..).trans hepoch
  · exact fun ht => timely_store ((hv.timely ht.begin).finish _) hepoch.symm
  · exact (Stack.map_path_pop _).trans hrest
  · exact hv.reports
  · exact hv.unheard
  · intro hr
    obtain ⟨hframe, hkeep⟩ := List.cons_eq_cons.1 (hv.silent hr)
    rw [Stack.map_keepable_pop hframe, hkeep]
  · exact fun hr hok => (hv.told hr hok).pop

theorem evaluated_steady {left : Nat}
    (hev : ∀ left', left = left' + 1 → request.Steadily (request.evaluate left')) :
    request.Steadily (request.evaluate left) := by
  intro site fresh stack w r stack' w' h
  cases runs_evaluate_cases h with
  | kept => exact .record _ _ _ _
  | cycle _ _ recovered => exact recovered.steady
  | tooDeep _ _ _ recovered => exact recovered.steady
  | computed _ _ remaining run => exact compute_steady (hev _ remaining) run
  | failed _ _ remaining run recovered =>
    refine (compute_steady (hev _ remaining) run).trans recovered.steady ?_
    rintro hr ⟨value, rfl⟩
    exact absurd hr recovered.not_ok

/-- Every evaluation is steady, whatever the hook answers. -/
theorem evaluate_steady (request : Request σ) (left : Nat) :
    request.Steadily (request.evaluate left) := by
  induction left using of_remaining with
  | step left ih => exact evaluated_steady ih

end Request

end LiveDoc

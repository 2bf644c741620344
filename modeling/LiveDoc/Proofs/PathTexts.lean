import LiveDoc.Proofs.KeyTexts
import LiveDoc.Proofs.ReportedWinners

/-! # Paths and their texts

A path is written with dots between its segments. It is read back from its text exactly if each segment
is: if it has no dot but a marker in front, names something and does not climb.
-/

namespace LiveDoc

namespace Path

/-! ## Segments of texts -/

/-- What stands between dots: a text without any, and not the empty one. -/
def Word (s : String) : Prop :=
  s ≠ "" ∧ '.' ∉ s.toList

/-- A word, or one with the marker in front: what a segment of a text can be. -/
def Legible (key : String) : Prop :=
  Word key ∨ ∃ s, Word s ∧ key = mark s

theorem split_mark {s : String} (h : '.' ∉ s.toList) : Text.split '.' (mark s) = ["", s] := by
  rw [Text.split, mark, String.toList_ofList, Text.splitChars, if_pos (show marker = '.' from rfl),
    Text.splitChars_of_not_mem h, List.map_cons, List.map_singleton, String.ofList_toList]

variable {key text : String} {keys parts segments : List String} {p q : Path}

/-- The parts of a legible key are read as the key. -/
theorem ofParts?_split (h : Legible key) (parts : List String) :
    ofParts? false (Text.split '.' key ++ parts) = (ofParts? false parts).map (key :: ·) := by
  rcases h with ⟨hne, hdot⟩ | ⟨s, ⟨hne, hdot⟩, rfl⟩
  · rw [Text.split_of_not_mem hdot, List.singleton_append, ofParts?, if_neg hne]
    rfl
  · rw [split_mark hdot, List.cons_append, List.singleton_append, ofParts?, if_pos rfl,
      if_neg Bool.false_ne_true, ofParts?, if_neg hne]
    rfl

theorem ofParts?_flatMap (h : ∀ key ∈ keys, Legible key) :
    ofParts? false (keys.flatMap (Text.split '.')) = some keys := by
  induction keys with
  | nil => rfl
  | cons key rest ih =>
    obtain ⟨hkey, hrest⟩ := List.forall_mem_cons.1 h
    rw [List.flatMap_cons, ofParts?_split hkey, ih hrest, Option.map_some]

theorem split_text (h : p.segments ≠ []) :
    Text.split '.' p.text = p.segments.flatMap (Text.split '.') := by
  obtain ⟨key, rest, hp⟩ := List.exists_cons_of_ne_nil h
  rw [text, hp]
  exact Text.split_intercalate '.' key rest

/-- A path of legible segments is read from its text. -/
theorem parse?_text (h : ∀ key ∈ p.segments, Legible key) : parse? p.text = some p := by
  by_cases hp : p.segments = []
  · obtain ⟨segments⟩ := p
    obtain rfl : segments = [] := hp
    rfl
  · have hparts := ofParts?_flatMap h
    rw [← split_text hp] at hparts
    have hne : p.text ≠ "" := by
      intro he
      rw [he] at hparts
      cases hparts
    rw [parse?, if_neg hne, hparts, Option.map_some]

/-- Only legible segments are read. -/
theorem legible_of_ofParts? {marked : Bool} (hp : ∀ part ∈ parts, '.' ∉ part.toList)
    (h : ofParts? marked parts = some segments) : ∀ s ∈ segments, Legible s := by
  induction parts generalizing marked segments with
  | nil =>
    cases marked with
    | true => cases h
    | false =>
      cases h
      simp
  | cons part rest ih =>
    obtain ⟨hpart, hrest⟩ := List.forall_mem_cons.1 hp
    rw [ofParts?] at h
    split at h
    · split at h
      · cases h
      · exact ih hrest h
    · next hne =>
      obtain ⟨more, hm, rfl⟩ := Option.map_eq_some_iff.1 h
      apply List.forall_mem_cons.2 ⟨_, ih hrest hm⟩
      split
      · exact .inr ⟨part, ⟨hne, hpart⟩, rfl⟩
      · exact .inl ⟨hne, hpart⟩

theorem legible_of_parse? (h : parse? text = some p) : ∀ s ∈ p.segments, Legible s := by
  unfold parse? at h
  split at h
  · cases h
    simp [root]
  · obtain ⟨segments, hsegments, rfl⟩ := Option.map_eq_some_iff.1 h
    exact legible_of_ofParts? (fun part hm => Text.not_mem_of_mem_split hm) hsegments

/-! ## Texts that are read back -/

/-- A key is what its own text names, read from the root. -/
def NamesItself (key : String) : Prop :=
  root.resolve key = .ok ⟨[key]⟩

instance (key : String) : Decidable (NamesItself key) :=
  inferInstanceAs (Decidable (_ = _))

theorem resolve_eq_ok : root.resolve text = .ok q ↔
    ∃ r, parse? text = some r ∧ follow? [] r.segments = some q.segments := by
  unfold resolve parse
  cases hp : parse? text with
  | none => simp [bind, Except.bind]
  | some r =>
    show root.join r = .ok q ↔ _
    unfold join
    cases hf : follow? root.segments r.segments with
    | none => simp_all [root]
    | some segments =>
      have hf : follow? [] r.segments = some segments := hf
      cases q
      simp [hf]

/-- Climbing leaves no trace in what a text names. -/
theorem ne_parentSegment_of_follow? {place out : List String} (h : follow? place segments = some out)
    (hplace : ∀ s ∈ place, s ≠ parentSegment) : ∀ s ∈ out, s ≠ parentSegment := by
  induction segments generalizing place with
  | nil =>
    cases h
    exact hplace
  | cons segment rest ih =>
    rw [follow?] at h
    split at h
    · split at h
      · cases h
      · exact ih h fun s hs => hplace s (List.dropLast_subset place hs)
    · next hne =>
      refine ih h fun s hs => ?_
      rcases List.mem_append.1 hs with hs | hs
      · exact hplace s hs
      · exact List.mem_singleton.1 hs ▸ hne

theorem legible_of_resolve (h : root.resolve text = .ok q) :
    ∀ s ∈ q.segments, Legible s ∧ s ≠ parentSegment := by
  obtain ⟨r, hr, hf⟩ := resolve_eq_ok.1 h
  intro s hs
  have hread := (mem_of_follow? hf hs).resolve_left List.not_mem_nil
  exact ⟨legible_of_parse? hr s hread, ne_parentSegment_of_follow? hf (by simp) s hs⟩

/-- A path is read back from its text if its segments are legible and none of them climbs. -/
theorem resolve_text_of_legible (h : ∀ key ∈ p.segments, Legible key ∧ key ≠ parentSegment) :
    root.resolve p.text = .ok p :=
  resolve_eq_ok.2 ⟨p, parse?_text fun key hk => (h key hk).1,
    follow?_plain (fun key hk => (h key hk).2) []⟩

theorem namesItself_iff : NamesItself key ↔ Legible key ∧ key ≠ parentSegment := by
  constructor
  · intro h
    exact legible_of_resolve h key (by simp)
  · intro h
    have htext : text ⟨[key]⟩ = key := String.intercalate_singleton
    have hback := resolve_text_of_legible (p := ⟨[key]⟩) (by simpa using h)
    rwa [htext] at hback

/-- A path is read back from its text exactly if each of its segments is. -/
theorem resolve_text_iff : root.resolve p.text = .ok p ↔ ∀ key ∈ p.segments, NamesItself key := by
  constructor
  · intro h key hk
    exact namesItself_iff.2 (legible_of_resolve h key hk)
  · intro h
    exact resolve_text_of_legible fun key hk => namesItself_iff.1 (h key hk)

/-! ## Keys that segments pick -/

/-- A text climbs somewhere on its way. -/
def Climbs (text : String) : Prop :=
  ∃ r, parse? text = some r ∧ parentSegment ∈ r.segments

theorem parse?_of_resolve (hc : ¬ Climbs text) (h : root.resolve text = .ok q) : parse? text = some q := by
  obtain ⟨r, hr, hf⟩ := resolve_eq_ok.1 h
  have hplain : ∀ s ∈ r.segments, s ≠ parentSegment := by
    rintro s hs rfl
    exact hc ⟨r, hr, hs⟩
  rw [follow?_plain hplain, List.nil_append, Option.some.injEq] at hf
  rw [hr, Option.some.injEq]
  exact congrArg mk hf

/-- A segment picks the key that it spells out, or one whose slot it names. -/
def Picks (segment key : String) : Prop :=
  segment = key ∨ isExact segment = false ∧ slotName key = segment

/-- A key with a dot inside belongs to no slot that its first part names. -/
theorem slotName_ne_of_split {a : String} {as : List String} (hs : Text.split '.' key = a :: as)
    (ha : a ≠ "") (has : as ≠ []) (hexact : isExact a = false) : slotName key ≠ a := by
  have hdot : '.' ∉ a.toList := Text.not_mem_of_mem_split (hs ▸ List.mem_cons_self)
  obtain ⟨b, bs, rfl⟩ := List.exists_cons_of_ne_nil has
  have hjoin := Text.intercalate_split '.' key
  rw [hs, String.intercalate_cons_cons] at hjoin
  have hkey : key.toList = a.toList ++ '.' :: ((String.singleton '.').intercalate (b :: bs)).toList := by
    rw [← hjoin]
    simp
  have hplain : isMarked key = false := by
    obtain ⟨c, cs, hcs⟩ := List.exists_cons_of_ne_nil
      (fun hnil => ha (String.toList_eq_nil_iff.1 hnil) : a.toList ≠ [])
    have hc : c ≠ marker := by
      rintro rfl
      exact hdot (hcs ▸ List.mem_cons_self)
    rw [isMarked, unmark?, Text.stripHead?, hkey, hcs, List.cons_append]
    simp [hc]
  intro he
  have hcolon : ∀ c ∈ a.toList, (c != ':') = true := by
    intro c hc
    rw [bne_iff_ne]
    rintro rfl
    exact (isExact_eq_false hexact).1 hc
  rw [slotName_eq, unmark_of_not_marked hplain, hkey, List.takeWhile_append_of_pos hcolon,
    List.takeWhile_cons_of_pos (by decide)] at he
  have hlength := congrArg (fun s => s.toList.length) he
  simp at hlength

/-- What is read first from the parts of a key and what follows it, if it picks the key, is the key. -/
theorem eq_of_picks_first {segment : String}
    (h : ofParts? false (Text.split '.' key ++ parts) = some (segment :: segments))
    (hparts : ∀ part ∈ parts, '.' ∉ part.toList) (hp : Picks segment key) :
    segment = key ∧ ofParts? false parts = some segments := by
  obtain ⟨a, as, hs⟩ := List.exists_cons_of_ne_nil (Text.split_ne_nil '.' key)
  have ha : '.' ∉ a.toList := Text.not_mem_of_mem_split (hs ▸ List.mem_cons_self)
  rw [hs, List.cons_append, ofParts?] at h
  split at h
  · -- an empty first part marks the next one, and a marked segment picks nothing but itself
    next hempty =>
    rw [if_neg Bool.false_ne_true] at h
    cases hmore : as ++ parts with
    | nil => simp [hmore, ofParts?] at h
    | cons b more =>
      rw [hmore, ofParts?, if_pos rfl] at h
      split at h
      · cases h
      · obtain ⟨segments', hrest, he⟩ := Option.map_eq_some_iff.1 h
        obtain ⟨rfl, rfl⟩ := List.cons.inj he
        have hdot : '.' ∉ b.toList := by
          rcases List.mem_append.1 (hmore ▸ List.mem_cons_self : b ∈ as ++ parts) with hm | hm
          · exact Text.not_mem_of_mem_split (hs ▸ List.mem_cons_of_mem a hm)
          · exact hparts b hm
        obtain rfl : mark b = key := by
          rcases hp with hkey | ⟨hexact, -⟩
          · exact hkey
          · have hmarked := (isExact_eq_false hexact).2
            rw [if_pos rfl, isMarked_mark] at hmarked
            cases hmarked
        rw [split_mark hdot] at hs
        obtain ⟨-, rfl⟩ := List.cons.inj hs
        obtain ⟨-, rfl⟩ := List.cons.inj hmore
        exact ⟨rfl, hrest⟩
  · next hne =>
    obtain ⟨segments', hrest, he⟩ := Option.map_eq_some_iff.1 h
    obtain ⟨rfl, rfl⟩ := List.cons.inj he
    rw [if_neg Bool.false_ne_true] at hp
    have has : as = [] := by
      rcases hp with rfl | ⟨hexact, hslot⟩
      · rw [Text.split_of_not_mem ha] at hs
        exact (List.cons.inj hs).2.symm
      · by_contra has
        exact slotName_ne_of_split hs hne has hexact hslot
    subst has
    have hkey : a = key := by
      have hjoin := Text.intercalate_split '.' key
      rwa [hs, String.intercalate_singleton] at hjoin
    exact ⟨hkey, hrest⟩

/-- If the segments that are read from the text of a path pick its keys, they are its keys. -/
theorem eq_of_picks {front rest : List String}
    (h : ofParts? false (keys.flatMap (Text.split '.')) = some (front ++ rest))
    (hp : List.Forall₂ Picks front keys) : front = keys ∧ rest = [] := by
  induction hp with
  | nil =>
    cases h
    simp
  | @cons segment key front keys hpick _ ih =>
    have hparts : ∀ part ∈ keys.flatMap (Text.split '.'), '.' ∉ part.toList := by
      intro part hm
      obtain ⟨key, -, hm⟩ := List.mem_flatMap.1 hm
      exact Text.not_mem_of_mem_split hm
    obtain ⟨rfl, hrest⟩ := eq_of_picks_first h hparts hpick
    obtain ⟨rfl, rfl⟩ := ih hrest
    exact ⟨rfl, rfl⟩

/-- Where the text of a path climbs nowhere, what it names can pick the keys of the path only if it is the
path. -/
theorem namesItself_of_picks (hc : ¬ Climbs p.text) (h : root.resolve p.text = .ok q)
    (hne : p.segments ≠ []) {front rest : List String} (hq : q.segments = front ++ rest)
    (hp : List.Forall₂ Picks front p.segments) : ∀ key ∈ p.segments, NamesItself key := by
  have hparse := parse?_of_resolve hc h
  have hempty : p.text ≠ "" := by
    intro he
    rw [he] at hparse
    obtain rfl : root = q := Option.some.inj hparse
    obtain ⟨rfl, -⟩ := List.append_eq_nil_iff.1 hq.symm
    exact hne (List.forall₂_nil_left_iff.1 hp)
  rw [parse?, if_neg hempty, split_text hne] at hparse
  obtain ⟨segments, hsegments, rfl⟩ := Option.map_eq_some_iff.1 hparse
  obtain rfl : segments = front ++ rest := hq
  obtain ⟨rfl, rfl⟩ := eq_of_picks hsegments hp
  intro key hk
  exact namesItself_iff.2 (legible_of_resolve h key (List.mem_append_left [] hk))

end Path

end LiveDoc

import LiveDoc.Context
import LiveDoc.Variant.Key

/-! # Ranking variants

The keys of one base name compete for a context. A key scores the weights of the dimensions on which
it gives what is asked for. The highest score wins, then the fewest other dimensions, then the
smallest key; if nothing scores, the plain key stands in.
-/

namespace LiveDoc

structure Candidate where
  key : String
  score : Nat
  extras : Nat
  plain : Bool
  deriving DecidableEq, Repr

/-- Whether a tag gives what is asked for. A flag is also asked for by the value `true`. -/
def Tag.matches (t : Tag) (requested : Table Dimension String) : Bool :=
  match requested.get? t.dimension with
  | none => false
  | some wanted => wanted == t.value || (t.isFlag && wanted == "true")

namespace Candidate

def ofKey (requested : Table Dimension String) (key : String) : Candidate :=
  let parsed := VariantKey.parse key
  let (hits, extras) := parsed.tags.partition (·.matches requested)
  ⟨key, hits.foldr (·.dimension.weight + ·) 0, extras.length, parsed.isPlain⟩

/-- Best first; candidates that tie are equal keys. -/
def order (a b : Candidate) : Ordering :=
  (compare b.score a.score).then ((compare a.extras b.extras).then (compare a.key b.key))

end Candidate

/-- The candidates for a base name among keys, best first. -/
def rankVariants (base : String) (context : Context) (keys : List String) : List Candidate :=
  let requested := context.requested
  let candidates := (keys.filter (slotName · == base)).map (Candidate.ofKey requested)
  candidates.mergeSort fun a b => (a.order b).isLE

/-- The winner of a ranking. -/
def winner? (ranked : List Candidate) : Option String :=
  match ranked with
  | [] => none
  | best :: _ =>
    if 0 < best.score then some best.key else (ranked.find? (·.plain)).map (·.key)

/-- The key that serves a context best among the variants of a base name. -/
def resolveVariant (base : String) (context : Context) (keys : List String) : Option String :=
  winner? (rankVariants base context keys)

end LiveDoc

import ClonePrint.Proofs.Deciding
import ClonePrint.Proofs.Depiction
import ClonePrint.Proofs.TopLevel

/-!
# How a chunk is divided

A parsed chunk is divided into a front that is understood and the rest. All of a closed chunk
is the front, and of a chunk that ends inside an item it is the part up to the last item that is
certainly complete. If there is no such front, or if it does not parse and the edges may be to
blame, the chunk comes back with its whole text. If nothing else is to blame, a closed chunk is
refused and the front of another one is skipped with a warning.
-/
namespace ClonePrint.TokenTree

/-- A front that can be parsed on its own while the rest is handed back. -/
structure Parts (p : TokenTree) (c : Chunk) (front rest : Text) : Prop where
  starts : c.openStart = false
  ends : c.openEnd = true
  divides : front ++ rest = c.text
  size : Text.size front = (p.frontEnd c.text).holdBackPoint
  progress : front ≠ []

/-- Why nothing of a chunk is understood yet. It starts inside an item, none of its items is
certainly complete, or what is parsed of it is broken and the edges may be to blame. -/
inductive Unready (p : TokenTree) (c : Chunk) : Prop
  | headless (starts : c.openStart = true)
  | unfinished (starts : c.openStart = false) (ends : c.openEnd = true)
      (point : (p.frontEnd c.text).holdBackPoint = 0)
  | broken {cause : Error} (provisional : c.provisional = true)
      (fails : p.parseStrict c.file c.text c.lineOffset = .error cause)
  | brokenFront {front rest : Text} {cause : Error} (provisional : c.provisional = true)
      (parts : p.Parts c front rest)
      (fails : p.parseStrict c.file front c.lineOffset = .error cause)

/-- The texts of a chunk that are parsed strictly. -/
inductive Parsed (p : TokenTree) (c : Chunk) : Text → Prop
  | whole (closed : c.isClosed = true) : Parsed p c c.text
  | front {front rest : Text} (parts : p.Parts c front rest) : Parsed p c front

/-- The rows that a strict parse of a text tells of: that of the first error, or else those of
the functions. -/
def rows (p : TokenTree) (text : Text) : List Nat :=
  let tree := p.frontEnd text
  if tree.label.hasError then [tree.firstErrorRow?.getD 0] else p.grammar.rows tree

/-- What becomes of a chunk that is parsed. If it is broken and has only itself to blame, the
broken part costs a warning, and what stands behind a broken front is handed back all the same. -/
inductive Divides (p : TokenTree) (c : Chunk) : Except Failure Outcome → Prop
  | whole {found : List Fingerprint} (closed : c.isClosed = true)
      (parses : p.parseStrict c.file c.text c.lineOffset = .ok found) :
      Divides p c (.ok { found })
  | front {front rest : Text} {found : List Fingerprint} (parts : p.Parts c front rest)
      (parses : p.parseStrict c.file front c.lineOffset = .ok found) :
      Divides p c (.ok { found, remainder := some (c.behind front rest) })
  | deferred {openStart openEnd : Bool} (unready : p.Unready c) :
      Divides p c (.ok { remainder := some { c with openStart, openEnd } })
  | refused {message : String} (final : c.provisional = false) (closed : c.isClosed = true)
      (fails : p.parseStrict c.file c.text c.lineOffset = .error (.parse message)) :
      Divides p c (.error (.error (.parse message)))
  | skipped {front rest : Text} {message : String} (final : c.provisional = false)
      (parts : p.Parts c front rest)
      (fails : p.parseStrict c.file front c.lineOffset = .error (.parse message)) :
      Divides p c (.ok
        { remainder := some (c.behind front rest)
          warnings := ["Error while parsing chunk " ++ toString c.id ++ " of " ++ c.file ++
            ", skipping its resolved part: " ++ (Error.parse message).message] })

variable {p : TokenTree} {c : Chunk}

theorem Parts.cut? {front rest : Text} (h : p.Parts c front rest) :
    Text.cut? (p.frontEnd c.text).holdBackPoint c.text = some (front, rest) :=
  Text.cut?_eq_some_iff.2 ⟨h.divides, h.size⟩

theorem Divides.quiet {result : Except Failure Outcome} (h : p.Divides c result)
    (hprovisional : c.provisional = true) :
    ∃ outcome, result = .ok outcome ∧ outcome.warnings = [] := by
  cases h with
  | whole closed parses => exact ⟨_, rfl, rfl⟩
  | front parts parses => exact ⟨_, rfl, rfl⟩
  | deferred unready => exact ⟨_, rfl, rfl⟩
  | refused final closed fails =>
      rw [hprovisional] at final
      cases final
  | skipped final parts fails =>
      rw [hprovisional] at final
      cases final

end ClonePrint.TokenTree

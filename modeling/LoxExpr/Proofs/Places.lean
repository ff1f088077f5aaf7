import LoxExpr.Scan
/-!
# Places: what becomes of the pieces of a text

A scan counts lines as it goes, piece by piece.  What it comes to is said here by the text alone: a piece belongs to the line
that is one more than the line ends in the text up to the end of the piece, and the closing token to the last line of the
text (`Scan.ofSegments_place`).  Nothing else goes into it, neither what the pieces before were nor whether they were in order.

All else about the tokens and errors of a scan is read off from there.
-/
namespace LoxExpr

namespace Segment

/-- The kind and the text of a piece that becomes a token. -/
def token? (s : Segment) : Option (TokenKind × List Char) :=
  match s.sort with
  | .ok kind => if kind.isLayout then none else some (kind, s.text)
  | .error _ => none

theorem token?_eq_some_iff {s : Segment} {kind : TokenKind} {w : List Char} :
    s.token? = some (kind, w) ↔ s.sort = .ok kind ∧ s.text = w ∧ kind.isLayout = false := by
  unfold token?
  cases s.sort with
  | error cause => simp
  | ok k =>
    by_cases hk : k.isLayout = true
    · simp only [hk, if_true, reduceCtorEq, false_iff, Except.ok.injEq]
      rintro ⟨rfl, -, h⟩
      rw [hk] at h
      cases h
    · simp only [if_neg hk, Option.some.injEq, Prod.mk.injEq, Except.ok.injEq]
      exact ⟨fun ⟨h, h'⟩ => ⟨h, h', by simpa [← h] using hk⟩, fun ⟨h, h', _⟩ => ⟨h, h'⟩⟩

def fault? (s : Segment) : Option LexError.Cause :=
  match s.sort with
  | .ok _ => none
  | .error cause => some cause

end Segment

/-! ## Places -/

/-- **A piece in its place**, behind the text that stands before it. -/
structure Placed where
  before : List Char
  piece : Segment

namespace Placed

def upTo (p : Placed) : List Char := p.before ++ p.piece.text

/-- The line of the piece in a text that begins on the line `first`. -/
def line (first : Nat) (p : Placed) : Nat := first + p.upTo.count '\n'

def token? (first : Nat) (p : Placed) : Option Token :=
  p.piece.token?.map fun (kind, lexeme) => Token.ofLexeme kind lexeme (p.line first)

def error? (first : Nat) (p : Placed) : Option LexError :=
  p.piece.fault?.map fun cause => ⟨cause, p.line first⟩

theorem map_token? (first : Nat) (p : Placed) :
    (p.token? first).map (fun t => (t.kind, t.lexeme.toList)) = p.piece.token? := by
  unfold token?
  cases p.piece.token? with
  | none => rfl
  | some x => simp [Token.ofLexeme]

theorem map_error? (first : Nat) (p : Placed) : (p.error? first).map LexError.cause = p.piece.fault? := by
  unfold error?
  cases p.piece.fault? <;> rfl

end Placed

namespace Segment

/-- Pieces in their places, the first one behind `before`. -/
def place (before : List Char) : List Segment → List Placed
  | [] => []
  | s :: ss => ⟨before, s⟩ :: place (before ++ s.text) ss

section
variable (before : List Char) (ss ts : List Segment)

theorem map_piece_place : (place before ss).map Placed.piece = ss := by
  induction ss generalizing before with
  | nil => rfl
  | cons s ss ih => rw [place, List.map_cons, ih]

theorem length_place : (place before ss).length = ss.length := by
  rw [← List.length_map Placed.piece, map_piece_place]

theorem place_append : place before (ss ++ ts) = place before ss ++ place (before ++ ss.flatMap text) ts := by
  induction ss generalizing before with
  | nil => rw [List.flatMap_nil, List.append_nil]; rfl
  | cons s ss ih => rw [List.cons_append, place, place, ih, List.flatMap_cons, List.append_assoc, List.cons_append]

/-- What is made of the pieces alone does not depend on their places. -/
theorem filterMap_place {α : Type} (f : Segment → Option α) :
    (place before ss).filterMap (fun p => f p.piece) = ss.filterMap f := by
  have hmap := List.filterMap_map (f := Placed.piece) (g := f) (l := place before ss)
  rw [map_piece_place] at hmap
  exact hmap.symm

variable {before ss}

theorem piece_mem_of_mem_place {p : Placed} (h : p ∈ place before ss) : p.piece ∈ ss := by
  rw [← map_piece_place before ss]
  exact List.mem_map_of_mem h

/-- A piece is a slice of the text. -/
theorem prefix_of_mem_place {p : Placed} (h : p ∈ place before ss) : p.upTo <+: before ++ ss.flatMap text := by
  induction ss generalizing before with
  | nil => cases h
  | cons s ss ih =>
    rw [List.flatMap_cons, ← List.append_assoc]
    rcases List.mem_cons.1 h with rfl | h
    · exact List.prefix_append _ _
    · exact ih h

end
end Segment

/-! ## The scan of the pieces -/

namespace Scan

open Segment (place)

/-- **A scan is made of the pieces in their places**: tokens and errors in order, each on its line, and the closing token on the
line of the end. -/
theorem ofSegments_place (first : Nat) (before : List Char) (ss : List Segment) :
    ofSegments (first + before.count '\n') ss =
      ⟨(place before ss).filterMap (Placed.token? first) ++
        [Token.eof (first + (before ++ ss.flatMap Segment.text).count '\n')],
       (place before ss).filterMap (Placed.error? first)⟩ := by
  induction ss generalizing before with
  | nil => rw [List.flatMap_nil, List.append_nil]; rfl
  | cons s ss ih =>
    have hline : first + before.count '\n' + s.newlines = first + (before ++ s.text).count '\n' := by
      rw [List.count_append, ← Nat.add_assoc]
      rfl
    unfold ofSegments
    rw [hline, ih (before ++ s.text), List.flatMap_cons, ← List.append_assoc, place]
    obtain ⟨sort, w⟩ := s
    cases sort with
    | error cause => rfl
    | ok kind =>
      by_cases hk : kind.isLayout = true
      · have hno : Placed.token? first ⟨before, ⟨.ok kind, w⟩⟩ = none := by
          simp [Placed.token?, Segment.token?, hk]
        simp only [hk, if_true, List.filterMap_cons, hno]
        rfl
      · have hsome : Placed.token? first ⟨before, ⟨.ok kind, w⟩⟩ =
            some (Token.ofLexeme kind w (first + (before ++ w).count '\n')) := by
          simp [Placed.token?, Segment.token?, hk, Placed.line, Placed.upTo]
        simp only [hk, Bool.false_eq_true, if_false, List.filterMap_cons, hsome]
        rfl

theorem ofSegments_eq (line : Nat) (ss : List Segment) :
    ofSegments line ss =
      ⟨(place [] ss).filterMap (Placed.token? line) ++ [Token.eof (line + (ss.flatMap Segment.text).count '\n')],
       (place [] ss).filterMap (Placed.error? line)⟩ :=
  ofSegments_place line [] ss

theorem ofSegments_tokens (line : Nat) (ss : List Segment) : ∃ us line', (ofSegments line ss).tokens = us ++ [Token.eof line'] ∧
    us.map (fun t => (t.kind, t.lexeme.toList)) = ss.filterMap Segment.token? := by
  rw [ofSegments_eq]
  refine ⟨_, _, rfl, ?_⟩
  rw [List.map_filterMap]
  simp only [Placed.map_token?]
  exact Segment.filterMap_place [] ss Segment.token?

theorem ofSegments_errors (line : Nat) (ss : List Segment) :
    (ofSegments line ss).errors.map LexError.cause = ss.filterMap Segment.fault? := by
  rw [ofSegments_eq, List.map_filterMap]
  simp only [Placed.map_error?]
  exact Segment.filterMap_place [] ss Segment.fault?

theorem mem_errors_ofSegments_iff {line : Nat} {ss : List Segment} {cause : LexError.Cause} :
    cause ∈ (ofSegments line ss).errors.map LexError.cause ↔ ∃ s ∈ ss, s.sort = .error cause := by
  rw [ofSegments_errors, List.mem_filterMap]
  refine exists_congr fun s => and_congr_right fun _ => ?_
  unfold Segment.fault?
  cases s.sort <;> simp

/-- **A token of a scan is made of one of the pieces**, or it is the closing one. -/
theorem mem_tokens_ofSegments {line : Nat} {ss : List Segment} {t : Token} (h : t ∈ (ofSegments line ss).tokens) :
    t.kind = .eof ∨
      ∃ s ∈ ss, ∃ line', s.token? = some (t.kind, s.text) ∧ t = Token.ofLexeme t.kind s.text line' := by
  rw [ofSegments_eq] at h
  rcases List.mem_append.1 h with h | h
  · obtain ⟨p, hp, htoken⟩ := List.mem_filterMap.1 h
    obtain ⟨⟨kind, w⟩, hpiece, rfl⟩ := Option.map_eq_some_iff.1 htoken
    obtain ⟨-, rfl, -⟩ := Segment.token?_eq_some_iff.1 hpiece
    exact .inr ⟨p.piece, Segment.piece_mem_of_mem_place hp, _, hpiece, rfl⟩
  · obtain rfl := List.mem_singleton.1 h
    exact .inl rfl

theorem length_tokens_ofSegments_le (line : Nat) (ss : List Segment) :
    (ofSegments line ss).tokens.length ≤ ss.length + 1 := by
  have hlen := List.length_filterMap_le (Placed.token? line) (place [] ss)
  rw [Segment.length_place] at hlen
  rw [ofSegments_eq, List.length_append, List.length_singleton]
  exact Nat.succ_le_succ hlen

/-- The scan of pieces in front of others: their own tokens without the closing one, and their own errors. -/
theorem exists_ofSegments_append (line : Nat) (ss : List Segment) : ∃ us, ∀ ts,
    ofSegments line (ss ++ ts) =
      ⟨us ++ (ofSegments (line + (ss.flatMap Segment.text).count '\n') ts).tokens,
        (ofSegments line ss).errors ++ (ofSegments (line + (ss.flatMap Segment.text).count '\n') ts).errors⟩ := by
  refine ⟨(place [] ss).filterMap (Placed.token? line), fun ts => ?_⟩
  rw [ofSegments_eq line (ss ++ ts), ofSegments_eq line ss, ofSegments_place line (ss.flatMap Segment.text) ts,
    Segment.place_append, List.filterMap_append, List.filterMap_append, List.flatMap_append, List.append_assoc]
  rfl

end Scan
end LoxExpr

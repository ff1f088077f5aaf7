import LoxExpr.Proofs.Alike
import LoxExpr.Proofs.Seams
import LoxExpr.Proofs.Stages
/-!
# Below: a text under other lines

Lines that leave no string open are scanned alike whatever is written under them, and what is written under them is scanned
alike whatever they are, but for the lines it stands on (`Scan.ofText_append_newline`).  A character that begins nothing or a
comment reaches no further than its own line.

Under lines without a token or a fault a text runs as it does alone, and only the lines that it reports are greater
(`Run.ofText_below`).  A scan hands its lines on to the tokens, reading to the operators of the tree and to its errors,
evaluation to the errors there; and a scan has a closing token, so reading never falls back on a line of its own.
-/
namespace LoxExpr

open Parsing (SameError endLine alike_map endLine_map ofTokens_alike)

/-! ## Moving down what a run leaves -/

def ParseError.down (k : Nat) (e : ParseError) : ParseError := { e with line := e.line + k }

/-- The same fault on a line further down. -/
def Diagnostic.down (k : Nat) : Diagnostic → Diagnostic
  | lex e => lex (e.down k)
  | parse e => parse (e.down k)
  | runtime e => runtime (e.down k)

def Diagnostics.down (k : Nat) (ds : Diagnostics) : Diagnostics := ⟨ds.entries.map (Diagnostic.down k)⟩

def Event.down (k : Nat) : Event → Event
  | scanned tokens => scanned (tokens.map (Token.down k))
  | parsed e => parsed (e.down k)

/-- The outcome of a run has no line. -/
def Run.down (k : Nat) (r : Run) : Run := ⟨r.outcome, r.events.map (Event.down k), r.diagnostics.down k⟩

variable {k : Nat}

@[simp] theorem Diagnostic.isStatic_down (d : Diagnostic) : (d.down k).isStatic = d.isStatic := by cases d <;> rfl

@[simp] theorem Diagnostics.hadError_down (ds : Diagnostics) : (ds.down k).hadError = ds.hadError := by
  simp [down, hadError, List.any_map, Function.comp_def]

theorem Diagnostics.down_reportAll (ds : Diagnostics) (new : List Diagnostic) :
    (ds.reportAll new).down k = (ds.down k).reportAll (new.map (Diagnostic.down k)) := by
  simp [down, reportAll]

theorem Diagnostics.down_report (ds : Diagnostics) (d : Diagnostic) : (ds.report d).down k = (ds.down k).report (d.down k) :=
  ds.down_reportAll [d]

theorem Scan.diagnostics_down (s : Scan) : (s.down k).diagnostics = s.diagnostics.map (Diagnostic.down k) := by
  simp [diagnostics, down, Diagnostic.down]

/-! ## Scanning -/

namespace Scan

theorem toList_append_newline (above below : String) :
    (above ++ "\n" ++ below).toList = above.toList ++ '\n' :: below.toList := by
  simp

theorem ofChars_under (above below : String) :
    ofChars (1 + above.toList.count '\n' + 1) below.toList = (ofText below).down (above.toList.count '\n' + 1) := by
  rw [Nat.add_assoc]
  exact ofSegments_down 1 _

/-- **Scanning is a homomorphism over lines**: lines that leave no string open and the lines under them are scanned apart.  The
first keep their tokens but for the closing one, and their errors; the others are scanned as if they stood alone, and moved
down. -/
theorem ofText_append_newline (above below : String)
    (h : LexError.Cause.unterminatedString ∉ (ofText above).errors.map LexError.cause) :
    ∃ us, (ofText above).tokens = us ++ [Token.eof (1 + above.toList.count '\n')] ∧ (∀ u ∈ us, u.kind ≠ .eof) ∧
      ofText (above ++ "\n" ++ below) =
        ⟨us ++ ((ofText below).down (above.toList.count '\n' + 1)).tokens,
          (ofText above).errors ++ ((ofText below).down (above.toList.count '\n' + 1)).errors⟩ := by
  have hclosed : Segment.StringsClosed (Segment.split above.toList) :=
    fun s hs hsort => h (mem_errors_ofSegments_iff.2 ⟨s, hs, hsort⟩)
  obtain ⟨us, htokens, hseam⟩ := @exists_ofChars_seam 1 above.toList hclosed
  refine ⟨us, htokens, fun u => kind_ne_eof_of_mem htokens, ?_⟩
  rw [← ofChars_under]
  exact (congrArg (ofChars 1) (toList_append_newline above below)).trans (hseam _)

/-- A stray character and a comment with a quote in it end with their line; a string goes on to the next one. -/
theorem ofText_under_stray_character :
    LexError.Cause.unterminatedString ∉ (ofText "true @ // \"\nnil").errors.map LexError.cause ∧
      ofText ("true @ // \"\nnil" ++ "\n" ++ "# \"a\nb\"") =
        ⟨[⟨.keyword .trueWord, "true", none, 1⟩, ⟨.keyword .nilWord, "nil", none, 2⟩,
          ⟨.string, "\"a\nb\"", some (.string "a\nb"), 4⟩, Token.eof 4],
        [⟨.unexpectedCharacter, 1⟩, ⟨.unexpectedCharacter, 3⟩]⟩ := by
  have herrors : (ofText "true @ // \"\nnil").errors.map LexError.cause = [.unexpectedCharacter] := by decide +kernel
  have hclosed : LexError.Cause.unterminatedString ∉ (ofText "true @ // \"\nnil").errors.map LexError.cause := by
    rw [herrors]
    decide
  have htokens : (ofText "true @ // \"\nnil").tokens =
      [⟨.keyword .trueWord, "true", none, 1⟩, ⟨.keyword .nilWord, "nil", none, 2⟩] ++ [Token.eof 2] := by decide +kernel
  obtain ⟨us, hus, -, happend⟩ := ofText_append_newline "true @ // \"\nnil" "# \"a\nb\"" hclosed
  obtain rfl := (List.append_inj' (htokens.symm.trans hus) rfl).1
  exact ⟨hclosed, happend.trans (by decide +kernel)⟩

/-- Lines without a token or a fault move the scan of what is under them down, and no more. -/
theorem ofText_under_layout {above : String} (below : String) (h : ∃ line, ofText above = ⟨[Token.eof line], []⟩) :
    ofText (above ++ "\n" ++ below) = (ofText below).down (above.toList.count '\n' + 1) := by
  obtain ⟨line, habove⟩ := h
  have habove : ofChars 1 above.toList = ⟨[] ++ [Token.eof line], []⟩ := habove
  obtain ⟨rfl, hbehind⟩ := ofChars_append_newline habove
  rw [← ofChars_under]
  exact (congrArg (ofChars 1) (toList_append_newline above below)).trans (hbehind _)

end Scan

/-! ## Reading -/

/-- **An error moved down is the same error on another line**, if the ends are as far apart. -/
theorem Parsing.SameError.eq_down {m : Nat} {err err' : ParseError} (h : SameError (· + k) m (m + k) err err') :
    err' = err.down k := by
  obtain ⟨hcause, hlocation, hline⟩ := h
  have hline : err'.line = err.line + k := by
    split at hline
    · rw [hline.1, hline.2]
    · exact hline
  obtain ⟨cause', location', line'⟩ := err'
  obtain rfl := hcause
  obtain rfl := hlocation
  obtain rfl := hline
  rfl

/-- **A list with a closing token that is moved down** is read as the same tree with the moved operators, or refused with the
moved error. -/
theorem Parsing.ofTokens_down (budget : Nat) {ts : List Token} (h : ∃ t ∈ ts, t.kind = .eof) :
    Expr.ofTokens budget (ts.map (Token.down k)) =
      ((Expr.ofTokens budget ts).map (Expr.down k)).mapError (ParseError.down k) := by
  have hend : endLine 1 (ts.map (Token.relined (· + k))) = endLine 1 ts + k := endLine_map 1 1 h
  have halike := ofTokens_alike budget (alike_map (φ := (· + k)) ts)
  rw [hend] at halike
  rcases halike with ⟨e, he, he'⟩ | ⟨err, err', he, he', hsame⟩
  · rw [e.relined_add] at he'
    rw [he]
    exact he'
  · rw [hsame.eq_down] at he'
    rw [he]
    exact he'

/-! ## Runs -/

namespace Run

theorem ofExpr_down (e : Expr) (sink : Diagnostics) : ofExpr (e.down k) (sink.down k) = (ofExpr e sink).down k := by
  unfold ofExpr
  rw [e.evaluate_down]
  cases e.evaluate with
  | ok v => rfl
  | error stop =>
    cases stop with
    | failed err => simp only [Except.mapError, Stop.down, down, Diagnostics.down_report]; rfl
    | misused m => rfl

theorem ofTokens_down (budget : Nat) {ts : List Token} (h : ∃ t ∈ ts, t.kind = .eof) (sink : Diagnostics) :
    ofTokens budget (ts.map (Token.down k)) (sink.down k) = (ofTokens budget ts sink).down k := by
  unfold ofTokens
  rw [Parsing.ofTokens_down budget h]
  cases Expr.ofTokens budget ts with
  | error err => simp only [Except.map, Except.mapError, down, Diagnostics.down_report]; rfl
  | ok e =>
    simp only [Except.map, Except.mapError, Diagnostics.hadError_down]
    split
    · rfl
    · exact ofExpr_down e sink

/-- **A text whose scan is that of another one, moved down**, runs as that one does. -/
theorem ofText_of_scan_down (budget : Nat) {source source' : String} (h : Scan.ofText source' = (Scan.ofText source).down k)
    (sink : Diagnostics) : ofText budget source' (sink.down k) = (ofText budget source sink).down k := by
  have heof : ∃ t ∈ (Scan.ofText source).tokens, t.kind = .eof := by
    obtain ⟨us, line, hus, -⟩ := Scan.ofSegments_tokens 1 (Segment.split source.toList)
    exact ⟨Token.eof line, by rw [Scan.ofText, hus]; simp, rfl⟩
  have hsink : (sink.down k).reportAll ((Scan.ofText source).down k).diagnostics =
      (sink.reportAll (Scan.ofText source).diagnostics).down k := by
    rw [Scan.diagnostics_down, Diagnostics.down_reportAll]
  have hrun := ofTokens_down (k := k) budget heof (sink.reportAll (Scan.ofText source).diagnostics)
  simp only [ofText, h, hsink]
  simp only [Scan.down, hrun]
  rfl

/-- **Leading lines without a token or a fault only shift lines**, from end to end.  Whatever is written under them has the
same outcome as alone, and leaves the same reports in the same order, every one of them as many lines further down as there
are leading lines; so is all that an onlooker is shown. -/
theorem ofText_below (budget : Nat) (above below : String) (h : ∃ line, Scan.ofText above = ⟨[Token.eof line], []⟩) :
    ofText budget (above ++ "\n" ++ below) .empty = (ofText budget below .empty).down (above.toList.count '\n' + 1) :=
  ofText_of_scan_down budget (Scan.ofText_under_layout below h) .empty

/-- A comment above a text that fails: the operator is one line further down. -/
theorem ofText_under_comment :
    (∃ line, Scan.ofText "// \"note" = ⟨[Token.eof line], []⟩) ∧
      (ofText 1 ("// \"note" ++ "\n" ++ "-true") .empty).diagnostics =
        ⟨[.runtime ⟨.operandMustBeNumber, ⟨.symbol .minus, "-", none, 2⟩⟩]⟩ := by
  have habove : ∃ line, Scan.ofText "// \"note" = ⟨[Token.eof line], []⟩ := ⟨1, by decide +kernel⟩
  have hscan : Scan.ofText "-true" =
      ⟨[Symbol.minus.token 1, ⟨.keyword .trueWord, "true", none, 1⟩, Token.eof 1], []⟩ := by decide +kernel
  have hparse : Expr.ofTokens 1 [Symbol.minus.token 1, ⟨.keyword .trueWord, "true", none, 1⟩, Token.eof 1] =
      .ok (.unaryAt .negate (.literal (.bool true)) 1) := by cbv
  have hrun : (ofText 1 "-true" .empty).diagnostics = ⟨[.runtime ⟨.operandMustBeNumber, Symbol.minus.token 1⟩]⟩ := by
    rw [ofText, hscan]
    simp only [ofTokens, hparse]
    rfl
  refine ⟨habove, ?_⟩
  rw [ofText_below 1 _ _ habove, down, hrun]
  rfl

end Run
end LoxExpr

import LoxExpr.Proofs.Replies
/-!
# Sessions: the lines at the prompt

What the lines of an input are is said here without the loop that reads them (`Lines`), and every input has its lines, once
(`exists_lines`, `Lines.unique`).  The session goes through them one by one, and each is answered as the script would be that
has this line as its text (`run_prompt_lines`).  So no line matters to another, and none ends the session but the first that
is not text.
-/
namespace LoxExpr
namespace CommandLine

/-! ## Lines -/

/-- **The lines of an input.**  A line goes up to a line feed, or up to a carriage return directly before that; behind the last
line feed a line stands only if anything does. -/
inductive Lines : List UInt8 → List (List UInt8) → Prop
  | nil : Lines [] []
  | last {line} : line ≠ [] → lineFeed ∉ line → Lines line [line]
  | feed {line rest lines} : lineFeed ∉ line → line.getLast? ≠ some carriageReturn → Lines rest lines →
      Lines (line ++ lineFeed :: rest) (line :: lines)
  | returnFeed {line rest lines} : lineFeed ∉ line → Lines rest lines →
      Lines (line ++ carriageReturn :: lineFeed :: rest) (line :: lines)

section
variable {bytes line rest : List UInt8} {lines : List (List UInt8)}

theorem nextLine?_nil : nextLine? [] = none := rfl

theorem nextLine?_of_notMem (hne : line ≠ []) (h : lineFeed ∉ line) : nextLine? line = some (line, []) := by
  have hdrop : line.dropWhile (· ≠ lineFeed) = [] := by
    rw [List.dropWhile_eq_nil_iff]
    exact fun b hb => decide_eq_true fun heq => h (heq ▸ hb)
  unfold nextLine?
  rw [hdrop]
  exact if_neg hne

theorem nextLine?_append (h : lineFeed ∉ line) (rest : List UInt8) :
    nextLine? (line ++ lineFeed :: rest) = some (dropReturn line, rest) := by
  have hline : ∀ b ∈ line, decide (b ≠ lineFeed) = true := fun b hb => decide_eq_true fun heq => h (heq ▸ hb)
  have htake : (line ++ lineFeed :: rest).takeWhile (· ≠ lineFeed) = line := by
    rw [List.takeWhile_append_of_pos hline]
    simp
  have hdrop : (line ++ lineFeed :: rest).dropWhile (· ≠ lineFeed) = lineFeed :: rest := by
    rw [List.dropWhile_append_of_pos hline]
    simp
  unfold nextLine?
  rw [hdrop, htake]

theorem Lines.eq_nil_iff (h : Lines bytes lines) : lines = [] ↔ bytes = [] := by
  cases h with
  | nil => simp
  | last hne => simp [hne]
  | feed => simp
  | returnFeed => simp

theorem Lines.nextLine?_eq (h : Lines bytes (line :: lines)) : ∃ rest, nextLine? bytes = some (line, rest) ∧ Lines rest lines := by
  cases h with
  | last hne hline => exact ⟨[], nextLine?_of_notMem hne hline, .nil⟩
  | @feed _ rest _ hline hreturn hrest =>
    refine ⟨rest, ?_, hrest⟩
    rw [nextLine?_append hline, dropReturn, if_neg hreturn]
  | @returnFeed _ rest _ hline hrest =>
    have hreturn : lineFeed ∉ line ++ [carriageReturn] := by
      rw [List.mem_append, not_or]
      exact ⟨hline, by decide⟩
    refine ⟨rest, ?_, hrest⟩
    rw [List.append_cons, nextLine?_append hreturn, dropReturn, List.getLast?_concat, if_pos rfl, List.dropLast_concat]

theorem Lines.of_nextLine? (h : nextLine? bytes = some (line, rest)) (hrest : Lines rest lines) :
    Lines bytes (line :: lines) := by
  by_cases hfeed : lineFeed ∈ bytes
  · obtain ⟨text, behind, rfl, htext⟩ := List.eq_append_cons_of_mem hfeed
    rw [nextLine?_append htext] at h
    cases h
    unfold dropReturn
    split
    · obtain ⟨text', rfl⟩ := List.getLast?_eq_some_iff.1 (by assumption)
      rw [List.dropLast_concat, ← List.append_cons]
      exact .returnFeed (fun hmem => htext (List.mem_append_left _ hmem)) hrest
    · exact .feed htext (by assumption) hrest
  · have hne : bytes ≠ [] := by
      rintro rfl
      cases h
    rw [nextLine?_of_notMem hne hfeed] at h
    cases h
    obtain rfl := hrest.eq_nil_iff.2 rfl
    exact .last hne hfeed

end

theorem exists_lines (bytes : List UInt8) : ∃ lines, Lines bytes lines := by
  -- by the length, since it is from the input that is left behind a line that the other lines come
  induction hn : bytes.length using Nat.strongRecOn generalizing bytes with
  | ind n ih =>
    by_cases hne : bytes = []
    · exact ⟨[], hne ▸ .nil⟩
    · by_cases hfeed : lineFeed ∈ bytes
      · obtain ⟨text, behind, rfl, htext⟩ := List.eq_append_cons_of_mem hfeed
        have hnext := nextLine?_append htext behind
        obtain ⟨lines, hlines⟩ := ih _ (hn ▸ length_lt_of_nextLine? hnext) behind rfl
        exact ⟨_, .of_nextLine? hnext hlines⟩
      · exact ⟨_, .last hne hfeed⟩

theorem Lines.unique {bytes : List UInt8} {lines lines' : List (List UInt8)} (h : Lines bytes lines) (h' : Lines bytes lines') :
    lines = lines' := by
  induction lines generalizing bytes lines' with
  | nil => exact (h'.eq_nil_iff.2 (h.eq_nil_iff.1 rfl)).symm
  | cons line lines ih =>
    obtain ⟨rest, hnext, hrest⟩ := h.nextLine?_eq
    cases lines' with
    | nil =>
      rw [h'.eq_nil_iff.1 rfl, nextLine?_nil] at hnext
      cases hnext
    | cons line' lines' =>
      obtain ⟨rest', hnext', hrest'⟩ := h'.nextLine?_eq
      rw [hnext] at hnext'
      cases hnext'
      rw [ih hrest hrest']

/-! ## The session -/

/-- No text is the end of a session. -/
theorem status_respond_ne_abortStatus (o : Options) (source : String) : (respond o source).status ≠ abortStatus := by
  rcases Run.ofText_empty o.budget source with ⟨e, v, -, h⟩ | ⟨ds, hstatic, h⟩ | ⟨e, err, -, h⟩
  · rw [respond_of_value h]
    exact (by decide : 0 ≠ abortStatus)
  · rw [respond_of_hadError hstatic h]
    exact (by decide : 65 ≠ abortStatus)
  · rw [respond_of_runtimeError h]
    exact (by decide : 70 ≠ abortStatus)

section
variable {o : Options} {stdin line rest : List UInt8}

theorem session_of_nextReply?_eq_none (h : nextReply? o stdin = none) : session o stdin = ⟨0, promptText, ""⟩ := by
  rw [session]
  split
  case h_1 => rfl
  case h_2 heq => cases h.symm.trans heq

theorem session_of_nextReply?_eq_some {reply : Reply} (h : nextReply? o stdin = some (reply, rest))
    (hstatus : reply.status ≠ abortStatus) :
    session o stdin = ⟨(session o rest).status, promptText ++ reply.stdout ++ (session o rest).stdout,
      reply.stderr ++ (session o rest).stderr⟩ := by
  rw [session]
  split
  case h_1 heq => cases h.symm.trans heq
  case h_2 heq =>
    cases h.symm.trans heq
    exact if_neg hstatus

end

/-- The lines that are answered: all, or those before the first that is not text. -/
def answered (lines : List (List UInt8)) : List (List UInt8) := lines.takeWhile fun line => (decode? line).isSome

theorem session_of_lines {o : Options} {reply : List UInt8 → Reply} {stdin : List UInt8} {lines : List (List UInt8)}
    (h : Lines stdin lines)
    (hreply : ∀ line ∈ answered lines, ∀ source, decode? line = some source → reply line = respond o source) :
    session o stdin = ⟨0, String.join ((answered lines).map fun line => promptText ++ (reply line).stdout) ++ promptText,
      String.join ((answered lines).map fun line => (reply line).stderr)⟩ := by
  -- on the lines, of which the session reads the first and goes on with an input that has the others
  induction lines generalizing stdin with
  | nil =>
    obtain rfl := h.eq_nil_iff.1 rfl
    rw [session_of_nextReply?_eq_none rfl]
    simp [answered]
  | cons line lines ih =>
    obtain ⟨rest, hnext, hrest⟩ := h.nextLine?_eq
    cases htext : decode? line with
    | none =>
      rw [session_of_nextReply?_eq_none (by simp [nextReply?, hnext, htext])]
      simp [answered, htext]
    | some source =>
      have hcons : answered (line :: lines) = line :: answered lines := by simp [answered, htext]
      rw [hcons] at hreply
      have hline := hreply line List.mem_cons_self source htext
      have ih := ih hrest fun line' hmem => hreply line' (List.mem_cons_of_mem _ hmem)
      rw [session_of_nextReply?_eq_some (by simp [nextReply?, hnext, htext]; rfl) (status_respond_ne_abortStatus o source),
        ih, hcons]
      simp [hline, String.append_assoc]

/-- **The lines at the prompt do not matter to each other.**  An input has its lines, and they alone are gone through, up to the
first that is not text.  Whatever the options are, each line is answered, behind a prompt, with what the command writes for a
script that has the line as its text, under the same options; a last prompt follows, and the session ends well.  Any options
can be asked for, at the prompt as for a script. -/
theorem run_prompt_lines (stdin : List UInt8) :
    (∃ lines, Lines stdin lines ∧ (∀ lines', Lines stdin lines' → lines' = lines) ∧
      ∀ o args folder scriptArgs path (scripts : List UInt8 → Folder) input,
        Request.ofArgs args = .ok (.start none o) → Request.ofArgs scriptArgs = .ok (.start (some path) o) →
        (∀ line ∈ answered lines, (scripts line).read path = .ok line) →
        run args folder stdin =
          ⟨0, String.join ((answered lines).map fun line => promptText ++ (run scriptArgs (scripts line) input).stdout) ++
              promptText,
            String.join ((answered lines).map fun line => (run scriptArgs (scripts line) input).stderr)⟩) ∧
    (∀ (o : Options) path, o.budget < UInt64.size → path ≠ "" → ∃ args scriptArgs,
      Request.ofArgs args = .ok (.start none o) ∧ Request.ofArgs scriptArgs = .ok (.start (some path) o)) := by
  refine ⟨?_, fun o path ho hpath => ⟨_, _, ofArgs_arguments ho, ofArgs_scriptArguments ho hpath⟩⟩
  obtain ⟨lines, hlines⟩ := exists_lines stdin
  refine ⟨lines, hlines, fun lines' h => h.unique hlines, ?_⟩
  intro o args folder scriptArgs path scripts input hargs hscript hread
  have hsession : run args folder stdin = session o stdin := by simp only [run, hargs]
  rw [hsession]
  refine session_of_lines hlines fun line hline source htext => ?_
  have hfile := hread line hline
  rw [decode?_eq_some_iff.1 htext] at hfile ⊢
  exact run_script hscript hfile input

/-- An input with a fault, a failure, a line that is not text and one more line. -/
def brokenInput : List UInt8 :=
  encode "@" ++ carriageReturn :: lineFeed :: (encode "-nil" ++ lineFeed :: ([255] ++ lineFeed :: encode "1"))

/-- What a script is answered that has this line as its text. -/
def scriptReply (line : List UInt8) : Reply := run ["line"] [(["line"], .file line)] []

/-- The first two lines are answered, each for itself. -/
theorem run_brokenInput : Request.ofArgs [] = .ok (.start none ⟨false, false, 256⟩) ∧
    run [] [] brokenInput =
      ⟨0, "> " ++ (scriptReply (encode "@")).stdout ++ ("> " ++ (scriptReply (encode "-nil")).stdout) ++ "> ",
        (scriptReply (encode "@")).stderr ++ (scriptReply (encode "-nil")).stderr⟩ := by
  have hargs : Request.ofArgs [] = .ok (.start none ⟨false, false, 256⟩) := rfl
  have hlines : Lines brokenInput [encode "@", encode "-nil", [255], encode "1"] :=
    .returnFeed (by decide) (.feed (by decide) (by decide) (.feed (by decide) (by decide) (.last (by decide) (by decide))))
  have hanswered : answered [encode "@", encode "-nil", [255], encode "1"] = [encode "@", encode "-nil"] := by
    have hfirst : decode? (encode "@") = some "@" := decode?_eq_some_iff.2 rfl
    have hsecond : decode? (encode "-nil") = some "-nil" := decode?_eq_some_iff.2 rfl
    have hthird : decode? [255] = none := by decide
    simp [answered, hfirst, hsecond, hthird]
  obtain ⟨⟨lines, -, hunique, hrun⟩, -⟩ := run_prompt_lines brokenInput
  obtain rfl := hunique _ hlines
  refine ⟨hargs, ?_⟩
  rw [hrun _ [] [] ["line"] "line" (fun line => [(["line"], .file line)]) [] hargs (by decide) (fun line _ => rfl), hanswered]
  simp [scriptReply, promptText]

end CommandLine
end LoxExpr

import IndentMarkup.Compile.Line

/-! Compiling a whole source. -/
namespace IndentMarkup.Compile
namespace State

theorem length_of_foldLines (depth : Int) (content : Text) (s : State) :
    (s.foldLines depth content).2.remaining.length ≤ s.remaining.length := by
  fun_induction foldLines depth content s with
  | case1 => simp
  | case2 => simp
  | case3 depth content s hd line next h ih =>
    exact Nat.le_trans ih (Nat.le_of_lt (length_of_nextLine? h))

theorem length_of_readBody (s : State) (rest : Text) :
    (s.readBody rest).2.remaining.length ≤ s.remaining.length := by
  unfold readBody
  have := s.length_of_foldLines rest.bracketLevel rest
  grind

theorem length_of_writeChain (parts : List Text) (s : State) :
    (s.writeChain parts).2.remaining.length ≤ s.remaining.length := by
  fun_induction writeChain parts s with
  | case1 => simp
  | case2 => simp
  | case3 last s element rest hp e after hb =>
    simpa [hb] using s.length_of_readBody rest
  | case4 last s element rest hp body after hb =>
    simpa [hb, writeElement] using s.length_of_readBody rest
  | case5 => simp
  | case6 part parts s _ element rest hp ih => simpa [writeElement, descend] using ih

theorem length_of_processLine {s : State} (h : s.atEnd = false) :
    s.processLine.2.remaining.length < s.remaining.length := by
  unfold processLine
  split
  · next hn => simp [nextLine?, h] at hn
  · next line s' hn =>
    have hl := length_of_nextLine? hn
    split
    · exact hl
    · split
      · simpa [writeVerbatim] using hl
      · exact Nat.lt_of_le_of_lt (length_of_writeChain _ _) hl

/-- Takes up the next line: its level, the tags that it closes, and what it stands for. -/
def step (s : State) : Except CompileError Unit × State :=
  s.readLevel.closeTags.processLine

theorem length_of_step {s : State} (h : s.atEnd = false) :
    s.step.2.remaining.length < s.remaining.length := by
  simpa [step, readLevel, closeTags] using
    length_of_processLine (s := s.readLevel.closeTags)
      (by simpa [readLevel, closeTags, atEnd] using h)

/-- Compiles what remains of the source, and closes all tags at its end. -/
def run (s : State) : Except CompileError State :=
  if _h : s.atEnd then .ok s.closeAll
  else match _hs : s.step with
    | (.error e, _) => .error e
    | (.ok (), next) => run next
termination_by s.remaining.length
decreasing_by
  have := length_of_step (s := s) (by simpa using _h)
  simpa [_hs] using this

end State

def initial (options : Options) (source : Text) : State where
  token := options.token
  remaining := source

end Compile

/-- Compiles a source text to HTML. -/
def compile (options : Options) (source : Text) : Except CompileError Text :=
  (Compile.initial options source).run.map fun s => s.page.render options.compress

end IndentMarkup

import IndentMarkup.Text.Search

/-! How many delimiters a text leaves open. -/
namespace IndentMarkup.Text

/-- Counts the openers of `t` as +1 and the closers as -1, taking whichever comes first and skipping
it; where both stand, the opener is taken. -/
def nestLevel (opener closer t : Text) : Int :=
  match ho : cut? opener t, hc : cut? closer t with
  | none, none => 0
  | some (_, rest), none => nestLevel opener closer rest + 1
  | none, some (_, rest) => nestLevel opener closer rest - 1
  | some (beforeOpener, afterOpener), some (beforeCloser, afterCloser) =>
    if beforeCloser.length < beforeOpener.length then nestLevel opener closer afterCloser - 1
    else nestLevel opener closer afterOpener + 1
termination_by t.length
decreasing_by all_goals first | exact length_of_cut? ho | exact length_of_cut? hc

/-- Angle brackets a text leaves open. -/
def bracketLevel (t : Text) : Int :=
  nestLevel ['<'] ['>'] t

end IndentMarkup.Text

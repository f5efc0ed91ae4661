/-! What a compilation is asked for. -/
namespace IndentMarkup

structure Options where
  /-- Whether to leave out indentation and line breaks. -/
  compress : Bool := false
  /-- The character that starts a verbatim line. -/
  token : Char := '\x60'
deriving DecidableEq, Repr

end IndentMarkup

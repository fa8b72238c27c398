/-!
# Padded text

Columns of a table: a text with blanks behind or before it up to a width.  The width counts
characters, and a longer text stays as it is.
-/

namespace JobGraph.Text

/-- The blanks that fill a text up to a width. -/
def filling (width : Nat) (text : String) : String :=
  String.ofList (List.replicate (width - text.length) ' ')

/-- A text at the left of a column. -/
def padEnd (width : Nat) (text : String) : String :=
  text ++ filling width text

/-- A text at the right of a column. -/
def padStart (width : Nat) (text : String) : String :=
  filling width text ++ text

/-- A padded text fills its column. -/
theorem length_padEnd (width : Nat) (text : String) :
    (padEnd width text).length = max width text.length := by
  simp [padEnd, filling]
  omega

/-- A padded text fills its column. -/
theorem length_padStart (width : Nat) (text : String) :
    (padStart width text).length = max width text.length := by
  simp [padStart, filling]
  omega

end JobGraph.Text

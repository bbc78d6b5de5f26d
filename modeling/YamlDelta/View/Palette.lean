/-
Colours for the text views.

Painting puts an escape code before a text and the reset code after it.  A palette that
is switched off paints nothing, and an empty text is never painted, so switching the
palette changes nothing but the escape codes.
-/
import YamlDelta.Compare.Difference

namespace YamlDelta

/-- The colours in use. -/
inductive Color where
  | blue
  | magenta
  | red
  | green
  | yellow
  | cyan
  | white
deriving Repr, DecidableEq

/-- The terminal's number for a foreground colour; all but blue are of the bright ones. -/
def Color.code : Color → String
  | blue => "34"
  | red => "91"
  | green => "92"
  | yellow => "93"
  | magenta => "95"
  | cyan => "96"
  | white => "97"

/-- Whether colours are used. -/
structure Palette where
  enabled : Bool
deriving Repr, DecidableEq

namespace Palette

/-- The palette that leaves every text alone. -/
def plain : Palette := ⟨false⟩

/-- The text in a colour. -/
def paint (p : Palette) (c : Color) (text : String) : String :=
  if !p.enabled || text.isEmpty then text else "\x1b[" ++ c.code ++ "m" ++ text ++ "\x1b[0m"

def added (p : Palette) (text : String) : String := p.paint .green text

def deleted (p : Palette) (text : String) : String := p.paint .red text

def modified (p : Palette) (text : String) : String := p.paint .yellow text

/-- Lines and kinds shown beside a value. -/
def metadata (p : Palette) (text : String) : String := p.paint .white text

/-- The keys of mappings. -/
def key (p : Palette) (text : String) : String := p.paint .cyan text

/-- What belongs to a difference of a kind. -/
def change (p : Palette) : ChangeKind → String → String
  | .added => p.added
  | .deleted => p.deleted
  | .modified => p.modified

/-- The text of a value.  Nulls and collections stay as they are. -/
def value (p : Palette) (kind : Kind) (text : String) : String :=
  match kind with
  | .string | .literal => p.paint .green text
  | .integer | .float | .bool => p.paint .magenta text
  | .null | .mapping | .sequence => text

@[simp] theorem paint_plain (c : Color) (text : String) : plain.paint c text = text := rfl

theorem paint_eq_empty {p : Palette} {c : Color} {text : String} :
    p.paint c text = "" ↔ text = "" := by
  unfold paint
  split
  · exact Iff.rfl
  · rename_i h
    simp only [Bool.or_eq_true, not_or, String.isEmpty_iff] at h
    simp [h.2]

@[simp] theorem value_plain (k : Kind) (text : String) : plain.value k text = text := by
  cases k <;> rfl

end Palette

end YamlDelta

/-!
# Layout

Where a piece of code is written: the text of one level of indentation, and the level. The level is
an integer, and a level below zero is not indented. The layout changes nothing but the blanks at
the start of lines.
-/

namespace ViewCompiler.Php

/-- The text of one level of indentation, and the current level. -/
structure Layout where
  indent : String
  depth : Int
deriving DecidableEq

namespace Layout

/-- The blanks at the start of a line, `extra` levels further in. -/
def pad (layout : Layout) (extra : Int) : String :=
  String.join (List.replicate (layout.depth + extra).toNat layout.indent)

/-- The layout some levels further in. -/
def deeper (layout : Layout) (levels : Int) : Layout :=
  { layout with depth := layout.depth + levels }

/-- The layout at another level. -/
def «at» (layout : Layout) (depth : Int) : Layout := { layout with depth := depth }

end Layout

end ViewCompiler.Php

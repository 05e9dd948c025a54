import JsonShape.Proofs.Definition.Grammar
import JsonShape.Proofs.Definition.Parts

namespace JsonShape

variable {declared declared' : String → Bool}

namespace Expression

theorem Derives.mono {phrase : Phrase} {text : List Char} {node : Node} (h : Derives declared phrase text node)
    (hs : ∀ name, declared name → declared' name) : Derives declared' phrase text node := by
  induction h with
  | keyword k         => exact .keyword k
  | quoted hq hb      => exact .quoted hq hb
  | number n          => exact .number n
  | truth             => exact .truth
  | falsehood         => exact .falsehood
  | name hn           => exact .name (hs _ hn)
  | list _ hi         => exact .list hi
  | group _ hi        => exact .group hi
  | single _ hi       => exact .single hi
  | several hl _ hi   => exact .several hl hi
  | plain _ hi        => exact .plain hi
  | optional _ hi     => exact .optional hi
  | spaced _ hp hi    => exact .spaced hi hp

-- The other names are no keywords, and no literals.
theorem parse_mono (hd : ∀ name, declared' name → isTypeName name ∧ ¬isReserved name)
    (hs : ∀ name, declared name → declared' name) {text : String} {node : Node}
    (h : parse declared text = .ok node) : parse declared' text = .ok node :=
  parse_of_derives hd ((derives_of_parse h).mono hs)

end Expression

namespace Definition

-- Names are declared for the expressions in a definition, and nothing else in it depends on them.
theorem Parses.mono (hd : ∀ name, declared' name → isTypeName name ∧ ¬isReserved name)
    (hs : ∀ name, declared name → declared' name) {definition : Json} {node : Node}
    (h : Parses declared definition node) : Parses declared' definition node := by
  induction h with
  | null           => exact .null
  | bool           => exact .bool
  | number         => exact .number
  | string h       => exact .string (Expression.parse_mono hd hs h)
  | list _ ho hi   => exact .list hi ho
  | tuple hl hr _ hi => exact .tuple hl hr hi
  | struct hd _ hi => exact .struct hd hi

theorem parse_mono (hd : ∀ name, declared' name → isTypeName name ∧ ¬isReserved name)
    (hs : ∀ name, declared name → declared' name) {definition : Json} {node : Node}
    (h : parse declared definition = .ok node) : parse declared' definition = .ok node :=
  parse_of_parses ((parses_of_parse h).mono hd hs)

end Definition

end JsonShape

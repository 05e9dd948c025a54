import Mathlib
import JsonShape.Proofs.Definition.NumberText
import JsonShape.Proofs.Definition.RoundTrip
import JsonShape.Proofs.Node.LiteralValue
import JsonShape.Proofs.Number.Positional

namespace JsonShape

namespace Literal

variable {x : Double}

theorem exists_letter_of_not_isPositional (h : ¬x.IsPositional) :
    ∃ letter ∈ (number x).text.toList, letter.isAlpha := by
  cases hx : x.toNumber? with
  | none =>
    have ht : (number x).text = "null" := by rw [text, hx]; rfl
    exact ht ▸ ⟨'n', by decide, rfl⟩
  | some n =>
    have ht : (number x).text = n.text := by rw [text, hx]; rfl
    rw [ht]
    cases n with
    | integer n => exact absurd (Double.isPositional_of_toNumber?_integer hx) h
    | float y =>
      obtain ⟨hn, hp⟩ := Double.isPositional_iff_of_toNumber?_float hx
      have he : 'e' ∈ (Decimal.shortest y.quanta).text :=
        Decimal.exponent_mem_text (by have := mt hp.mpr h; omega)
      refine ⟨'e', ?_, rfl⟩
      rw [Json.Number.text, String.toList_ofList, Binary64.text, if_neg hn]
      exact List.mem_append_right _ he

theorem isReadable_of_isPositional (h : x.IsPositional) : (number x).IsReadable := by
  cases hx : x.toNumber? with
  | none => exact (Double.toNumber?_eq_none_iff.mp hx ▸ h : Double.infinite.IsPositional).elim
  | some n =>
    have ht : (number x).text = n.text := by rw [text, hx]; rfl
    have hv : n.value = x := Double.value_of_toNumber? hx
    suffices hr : ReadsNumber n.text.toList n.value by rwa [IsReadable, ht, ← hv]
    cases n with
    | integer n => exact readsNumber_integerText (length_decimalDigits_integer64 n)
    | float y =>
      obtain ⟨hn, hp⟩ := Double.isPositional_iff_of_toNumber?_float hx
      rw [Json.Number.text, String.toList_ofList]
      exact readsNumber_binary64 hn (hp.mp h).left (hp.mp h).right

theorem admits_toJson_number_iff : (number x).admits (number x).toJson ↔ x ≠ .infinite := by
  constructor
  case mp  => rintro h rfl; cases h
  case mpr => exact fun h => admits_toJson (mt number.inj h)

end Literal

section Letters

variable {letter : Char}

theorem not_isBlank_of_isAlpha (h : letter.isAlpha) : ¬isBlank letter :=
  not_isBlank_of_isPlain (isPlain_of_isAlphanum (by simp [Char.isAlphanum, h])).left

theorem Numeral.not_mem_text (n : Numeral) (h : letter.isAlpha) : letter ∉ n.text := by
  have hd : ¬letter.isDigit := not_isDigit_of_isAlpha h
  have hs : letter ∉ n.sign := by
    rw [sign]
    split
    case isTrue  => rintro hm; cases List.mem_singleton.mp hm; cases h
    case isFalse => exact List.not_mem_nil
  have ht : letter ∉ n.tail := by
    rw [tail]
    split
    case isTrue  => exact List.not_mem_nil
    case isFalse =>
      intro hm
      cases hm with
      | head       => cases h
      | tail _ hm  => exact hd (n.isDigit_frac _ hm)
  simp only [text, List.mem_append, not_or]
  exact ⟨⟨hs, fun hm => hd (n.isDigit_whole _ hm)⟩, ht⟩

-- Around a number stand parentheses and white space.
theorem Expression.Derives.letter_not_mem {declared : String → Bool} {phrase : Phrase} {text : List Char}
    {node : Node} {x : Double} (hd : Derives declared phrase text node) (hn : node = .literal (.number x))
    (h : letter.isAlpha) : letter ∉ text := by
  induction hd with
  | number n         => exact n.not_mem_text h
  | group _ hi       =>
    have hb : letter ≠ '(' ∧ letter ≠ ')' := by
      constructor <;> (rintro rfl; cases h)
    simp [hb, hi hn]
  | single _ hi      => exact hi hn
  | plain _ hi       => exact hi hn
  | spaced _ hp hi   =>
    obtain ⟨hb, ha⟩ := hp
    simp only [List.mem_append, not_or]
    have hl {blanks : List Char} (hs : ∀ x ∈ blanks, isBlank x) : letter ∉ blanks := fun hm =>
      not_isBlank_of_isAlpha h (hs _ hm)
    exact ⟨⟨hl hb, hi hn⟩, hl ha⟩
  | keyword | quoted | truth | falsehood | name | list | several | optional => cases hn

end Letters

namespace Definition

variable {declared : String → Bool} {x : Double} {source : Json}

theorem parse_number_of_isNumber {text : String} (h : isNumber text.toList) :
    Expression.parse declared text = .ok (.literal (.number (numberOfText text.toList))) := by
  have hm : Expression.ReadsMember declared text.toList (.literal (.number (numberOfText text.toList))) :=
    .of_bare (bare_of_isNumber h) (Expression.atom?_number h)
  have hp := hm.union.definition
  rwa [String.ofList_toList] at hp

-- The number that a definition writes, with an exponent in a JSON number and without one in a text.
def writtenNumber? : Json → Option Double
  | .number n    => some n.value
  | .string text => if isNumber text.toList then some (numberOfText text.toList) else none
  | _            => none

theorem parse_of_writtenNumber? (h : writtenNumber? source = some x) :
    parse declared source = .ok (.literal (.number x)) := by
  cases source with
  | number n =>
    cases h
    rw [parse]
  | string text =>
    simp only [writtenNumber?] at h
    split at h
    case isFalse => cases h
    case isTrue hn =>
      cases h
      rw [parse, parse_number_of_isNumber hn]
  | null | bool | array | object => cases h

theorem definition_number : (Node.literal (.number x)).definition = .string (Literal.number x).text := by
  rw [Node.definition, Node.text] <;> intros <;> contradiction

theorem parse_definition_number_iff :
    parse declared (Node.literal (.number x)).definition = .ok (.literal (.number x)) ↔ x.IsPositional := by
  rw [definition_number, parse]
  constructor
  case mp =>
    intro hp
    by_contra hn
    obtain ⟨letter, hm, ha⟩ := Literal.exists_letter_of_not_isPositional hn
    exact (Expression.derives_of_parse hp).letter_not_mem rfl ha hm
  case mpr =>
    intro hp
    obtain ⟨hn, hx⟩ := Literal.isReadable_of_isPositional hp
    rw [parse_number_of_isNumber hn, hx]

theorem number_literal_round_trip (h : writtenNumber? source = some x) :
    parse declared source = .ok (.literal (.number x)) ∧
      (parse declared (Node.literal (.number x)).definition = .ok (.literal (.number x)) ↔ x.IsPositional) ∧
      ((Literal.number x).admits (Literal.number x).toJson ↔ x ≠ .infinite) :=
  ⟨parse_of_writtenNumber? h, parse_definition_number_iff, Literal.admits_toJson_number_iff⟩

-- A trailing zero of a fraction is not written again.
theorem number_literal_round_trip_fraction :
    ∃ x : Double, writtenNumber? (.string "-12.50") = some x ∧ x.IsPositional ∧
      parse (· = "user") (Node.literal (.number x)).definition = .ok (.literal (.number x)) ∧
      (Literal.number x).admits (Literal.number x).toJson := by
  have hw : writtenNumber? (.string "-12.50") = some (numberOfText "-12.50".toList) := by
    rw [writtenNumber?, if_pos (by decide)]
  have hp : (numberOfText "-12.50".toList).IsPositional ∧ numberOfText "-12.50".toList ≠ .infinite := by
    decide +kernel
  generalize numberOfText "-12.50".toList = x at hw hp
  obtain ⟨-, hr, ha⟩ := number_literal_round_trip hw
  exact ⟨x, hw, hp.left, hr.mpr hp.left, ha.mpr hp.right⟩

theorem text_of_millionth : (Literal.number (numberOfText "0.000001".toList)).text = "1e-6" := by
  decide +kernel

-- A text without an exponent is written with one, and refused.
theorem not_parse_definition_number :
    ¬∀ source x, writtenNumber? source = some x →
      parse (· = "user") (Node.literal (.number x)).definition = .ok (.literal (.number x)) := by
  intro h
  have hw : writtenNumber? (.string "0.000001") = some (numberOfText "0.000001".toList) := by
    rw [writtenNumber?, if_pos (by decide)]
  have hp := h _ _ hw
  rw [definition_number, text_of_millionth] at hp
  have he : parse (· = "user") (.string "1e-6") = .error (.unknownType "1e-6") := by cbv
  cases he.symm.trans hp

-- The other literals are always read back, so the numbers alone decide on a definition.
theorem parse_definition_of_isPositional {node : Node}
    (hd : ∀ name, declared name → isTypeName name ∧ ¬isReserved name)
    (hp : parse declared source = .ok node)
    (hn : ∀ x, Node.Part (.literal (.number x)) node → x.IsPositional) :
    parse declared node.definition = .ok node := by
  refine parse_of_parses (parses_definition hd (fun l hl => ?_) (wellFormed_of_parse hp))
  cases l with
  | number x          => exact Literal.isReadable_of_isPositional (hn x hl)
  | string _ | bool _ => trivial

end Definition

end JsonShape

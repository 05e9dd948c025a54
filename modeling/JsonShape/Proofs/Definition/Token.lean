import Mathlib
import JsonShape.Typespace.Basic
import JsonShape.Proofs.Definition.Numeral
import JsonShape.Proofs.Definition.Scan
import JsonShape.Proofs.Definition.Shape
import JsonShape.Proofs.Text.Trim

namespace JsonShape

open Expression

-- The text neither starts nor ends with white space, and is not marked as optional.
structure Framed (text : List Char) : Prop where
  head : ∃ x, text.head? = some x ∧ ¬isBlank x
  last : ∃ x, text.getLast? = some x ∧ ¬isBlank x ∧ x ≠ '?'

namespace Framed

variable {text rest : List Char}

theorem ne_nil (h : Framed text) : text ≠ [] := by
  obtain ⟨x, hx, _⟩ := h.head
  rintro rfl
  cases hx

theorem trimEnd (h : Framed text) : trimEnd text = text := by
  obtain ⟨x, hx, hb, _⟩ := h.last
  exact trimEnd_eq_self fun y hy => Option.some.inj (hx.symm.trans hy) ▸ hb

theorem trim (h : Framed text) : trim text = text := by
  obtain ⟨x, hx, hb⟩ := h.head
  rw [JsonShape.trim, trimStart_eq_self fun y hy => Option.some.inj (hx.symm.trans hy) ▸ hb, h.trimEnd]

theorem not_marked (h : Framed text) : dropEnd? text ['?'] = none := by
  obtain ⟨x, hx, _, hm⟩ := h.last
  exact dropEnd?_eq_none [] fun hl => hm (Option.some.inj (hx.symm.trans hl))

-- Only the ends of a text matter.
theorem append (h : Framed text) (hr : Framed rest) (middle : List Char) :
    Framed (text ++ middle ++ rest) := by
  constructor
  case head =>
    obtain ⟨x, hx, hb⟩ := h.head
    exact ⟨x, by simp [hx], hb⟩
  case last =>
    obtain ⟨x, hx, hb⟩ := hr.last
    exact ⟨x, by simp [hx], hb⟩

theorem singleton {x : Char} (hb : ¬isBlank x) (hm : x ≠ '?') : Framed [x] :=
  ⟨⟨x, rfl, hb⟩, ⟨x, rfl, hb, hm⟩⟩

end Framed

-- The characters of keywords, numbers and names.
def isPlain (x : Char) : Bool :=
  x.isAlphanum || x = '_' || x = '$' || x = '-' || x = '.'

section Plain

variable {x : Char} {text : List Char}

theorem not_isBlank_of_isPlain (h : isPlain x) : ¬isBlank x := by
  simp only [isPlain, Char.isAlphanum, Char.isAlpha, Char.isUpper, Char.isLower, Char.isDigit,
    Bool.or_eq_true, Bool.and_eq_true, decide_eq_true_eq, ge_iff_le, UInt32.le_iff_toNat_le] at h
  simp only [isBlank, blankRanges, List.any_cons, List.any_nil, Bool.or_eq_true, Bool.and_eq_true,
    decide_eq_true_eq, Bool.false_eq_true, or_false]
  rcases h with (((h | h) | h) | h) | h
  · simp at h; omega
  all_goals subst h; decide

theorem ne_of_isPlain {y : Char} (h : isPlain x) (hy : isPlain y = false) : x ≠ y :=
  fun he => Bool.false_ne_true (hy.symm.trans (he ▸ h))

theorem solid_of_isPlain (h : ∀ x ∈ text, isPlain x) : Solid text :=
  solid_of_forall fun x hx =>
    have hp := h x hx
    ⟨ne_of_isPlain hp rfl, ne_of_isPlain hp rfl, ne_of_isPlain hp rfl, ne_of_isPlain hp rfl,
      ne_of_isPlain hp rfl⟩

theorem framed_of_isPlain (hn : text ≠ []) (h : ∀ x ∈ text, isPlain x) : Framed text := by
  constructor
  case head =>
    exact ⟨text.head hn, List.head?_eq_some_head hn, not_isBlank_of_isPlain (h _ (List.head_mem hn))⟩
  case last =>
    have hl := h _ (List.getLast_mem hn)
    exact ⟨text.getLast hn, List.getLast?_eq_some_getLast hn, not_isBlank_of_isPlain hl,
      ne_of_isPlain hl rfl⟩

end Plain

namespace Keyword

theorem isPlain_name (k : Keyword) : ∀ x ∈ k.name.toList, isPlain x := by
  have h : k.name.toList.all isPlain := by cases k <;> decide
  exact List.all_eq_true.mp h

theorem name_ne_nil (k : Keyword) : k.name.toList ≠ [] := by
  cases k <;> decide

theorem not_isNumber_name (k : Keyword) : ¬isNumber k.name.toList := by
  cases k <;> decide

end Keyword

section Number

variable {text : List Char}

theorem isPlain_of_isDigit {x : Char} (h : x.isDigit) : isPlain x := by
  simp [isPlain, Char.isAlphanum, h]

theorem isPlain_of_isNumber (h : isNumber text) : text ≠ [] ∧ ∀ x ∈ text, isPlain x := by
  obtain ⟨n, rfl⟩ := Numeral.exists_of_isNumber h
  have hs : ∀ x ∈ n.sign, isPlain x := by
    rw [Numeral.sign]
    split <;> simp [isPlain]
  have hw : ∀ x ∈ n.whole, isPlain x := fun x hx => isPlain_of_isDigit (n.isDigit_whole x hx)
  have hf : ∀ x ∈ n.tail, isPlain x := by
    rw [Numeral.tail]
    split
    case isTrue  => simp
    case isFalse =>
      exact List.forall_mem_cons.mpr ⟨rfl, fun x hx => isPlain_of_isDigit (n.isDigit_frac x hx)⟩
  refine ⟨by simp [Numeral.text, n.whole_ne_nil], ?_⟩
  exact List.forall_mem_append.mpr ⟨List.forall_mem_append.mpr ⟨hs, hw⟩, hf⟩

theorem not_isNumber_of_head {x : Char} (hd : ¬x.isDigit) (hm : x ≠ '-') : ¬isNumber (x :: text) := by
  rw [isNumber.eq_def]
  split
  case h_1 he => exact absurd (List.cons.inj he).left hm
  case h_2    => simp [isUnsignedNumber, hd]

end Number

section Quote

variable {text body : List Char} {quote : Char}

theorem unquote?_quoted (h : quote ∉ body) : unquote? quote (quote :: body ++ [quote]) = some body := by
  simp [unquote?, h]

theorem unquote?_eq_none (h : text.head? ≠ some quote) : unquote? quote text = none := by
  cases text with
  | nil => rfl
  | cons x rest =>
    have hx : x ≠ quote := fun he => h (he ▸ rfl)
    simp [unquote?, hx]

end Quote

namespace Literal

-- The text of a number is one that stands for this number. A number without such a text has an
-- exponent in its text, or is not finite.
def IsReadable : Literal → Prop
  | number x => isNumber (number x).text.toList ∧ numberOfText (number x).text.toList = x
  | string _ | bool _ => True

-- A string stands between two quotes that it does not hold.
theorem exists_quote {s : String} (h : (string s).IsWritable) :
    ∃ quote, (quote = '\'' ∨ quote = '"') ∧ quote ∉ s.toList ∧
      (string s).text.toList = quote :: s.toList ++ [quote] := by
  simp only [text, List.contains_iff_mem]
  split
  case isTrue hs  => exact ⟨'"', .inr rfl, fun hd => h ⟨hs, hd⟩, by simp⟩
  case isFalse hs => exact ⟨'\'', .inl rfl, hs, by simp⟩

theorem ofText?_of_isNumber {text : List Char} (h : isNumber text) :
    ofText? text = some (.number (numberOfText text)) := by
  obtain ⟨_, hp⟩ := isPlain_of_isNumber h
  have hq {quote : Char} (hq : isPlain quote = false) : unquote? quote text = none :=
    unquote?_eq_none fun hh => ne_of_isPlain (hp quote (List.mem_of_mem_head? hh)) hq rfl
  have ht : text ≠ "true".toList := by rintro rfl; revert h; decide
  have hf : text ≠ "false".toList := by rintro rfl; revert h; decide
  have h₁ : unquote? '\'' text = none := hq rfl
  have h₂ : unquote? '"' text = none := hq rfl
  simp only [ofText?, if_neg ht, if_neg hf, h₁, h₂, if_pos h, Option.orElse_eq_orElse,
    Option.orElse_eq_or, Option.or_none]

theorem ofText?_quoted {quote : Char} {body : List Char} (hq : quote = '\'' ∨ quote = '"')
    (hb : quote ∉ body) : ofText? (quote :: body ++ [quote]) = some (.string (String.ofList body)) := by
  have hu := unquote?_quoted hb
  rcases hq with rfl | rfl
  case inl => simp only [ofText?, hu]; simp
  case inr =>
    have hn : unquote? '\'' ('"' :: body ++ ['"']) = none := unquote?_eq_none (by simp)
    simp only [ofText?, hu, hn]
    simp

end Literal

section Name

variable {name : String}

theorem isPlain_of_isAlphanum {x : Char} (h : x.isAlphanum) : isPlain x ∧ x ≠ '-' := by
  refine ⟨by simp [isPlain, h], ?_⟩
  rintro rfl
  cases h

theorem not_isDigit_of_isAlpha {x : Char} (h : x.isAlpha) : ¬x.isDigit := by
  simp only [Char.isAlpha, Char.isUpper, Char.isLower, Char.isDigit, Bool.or_eq_true, Bool.and_eq_true,
    decide_eq_true_eq, ge_iff_le, UInt32.le_iff_toNat_le] at h ⊢
  simp at h ⊢
  omega

-- A name starts with no digit and no sign, so it is no number.
theorem exists_of_isTypeName (h : isTypeName name) :
    ∃ x rest, name.toList = x :: rest ∧ ¬x.isDigit ∧ ∀ y ∈ x :: rest, isPlain y ∧ y ≠ '-' := by
  rw [isTypeName] at h
  cases hn : name.toList with
  | nil => simp [hn] at h
  | cons x rest =>
    simp only [hn, Bool.and_eq_true, Bool.or_eq_true, decide_eq_true_eq, List.all_eq_true] at h
    obtain ⟨hx, hr⟩ := h
    have hm {y : Char} (hy : y = '_' ∨ y = '$') : isPlain y ∧ y ≠ '-' := by
      rcases hy with rfl | rfl <;> decide
    refine ⟨x, rest, rfl, ?_, List.forall_mem_cons.mpr ⟨?_, fun y hy => ?_⟩⟩
    · rcases hx with ha | rfl | rfl
      · exact not_isDigit_of_isAlpha ha
      · decide
      · decide
    · exact hx.elim (fun ha => isPlain_of_isAlphanum (by simp [Char.isAlphanum, ha])) hm
    · exact (hr y hy).elim isPlain_of_isAlphanum hm

theorem ofText?_eq_none_of_name (ht : isTypeName name) (hr : ¬isReserved name) :
    Literal.ofText? name.toList = none := by
  obtain ⟨x, rest, he, hd, hp⟩ := exists_of_isTypeName ht
  simp only [isReserved, Bool.or_eq_true, decide_eq_true_eq, not_or] at hr
  obtain ⟨⟨_, h₁⟩, h₂⟩ := hr
  have hq {quote : Char} (hq : isPlain quote = false) : unquote? quote name.toList = none :=
    unquote?_eq_none fun hh => ne_of_isPlain (hp quote (he ▸ List.mem_of_mem_head? hh)).left hq rfl
  have h₃ : unquote? '\'' name.toList = none := hq rfl
  have h₄ : unquote? '"' name.toList = none := hq rfl
  have h₅ : ¬isNumber name.toList := he ▸ not_isNumber_of_head hd (hp x (.head _)).right
  simp only [Literal.ofText?, String.toList_inj, if_neg h₁, if_neg h₂, h₃, h₄,
    Option.orElse_eq_orElse, Option.orElse_eq_or, Option.or_none, if_neg h₅]

end Name

-- The text of an expression that is no union, no list and in no parentheses.
structure Bare (text : List Char) : Prop extends Framed text where
  solid   : Solid text
  noList  : text.getLast? ≠ some ']'
  noGroup : text.head? ≠ some '('

section Bare

variable {text : List Char}

theorem bare_of_isPlain (hn : text ≠ []) (h : ∀ x ∈ text, isPlain x) : Bare text where
  toFramed := framed_of_isPlain hn h
  solid    := solid_of_isPlain h
  noList   := fun hl => ne_of_isPlain (h _ (List.mem_of_getLast? hl)) rfl rfl
  noGroup  := fun hh => ne_of_isPlain (h _ (List.mem_of_mem_head? hh)) rfl rfl

theorem bare_quoted {quote : Char} {body : List Char} (hq : quote = '\'' ∨ quote = '"')
    (hb : quote ∉ body) : Bare (quote :: body ++ [quote]) := by
  have hf : Framed [quote] := by
    rcases hq with rfl | rfl
    case inl => exact .singleton (by decide) (by decide)
    case inr => exact .singleton (by decide) (by decide)
  refine ⟨hf.append hf body, solid_quoted hq hb, ?_, ?_⟩
  · rw [List.getLast?_concat]
    rcases hq with rfl | rfl <;> decide
  · rcases hq with rfl | rfl <;> simp

theorem Keyword.bare_name (k : Keyword) : Bare k.name.toList :=
  bare_of_isPlain k.name_ne_nil k.isPlain_name

theorem bare_of_isNumber (h : isNumber text) : Bare text := by
  obtain ⟨hn, hp⟩ := isPlain_of_isNumber h
  exact bare_of_isPlain hn hp

theorem bare_boolText (b : Bool) : Bare (Json.boolText b).toList := by
  have hn : (Json.boolText b).toList ≠ [] := by cases b <;> decide
  have hp : (Json.boolText b).toList.all isPlain := by cases b <;> decide
  exact bare_of_isPlain hn (List.all_eq_true.mp hp)

theorem bare_of_isTypeName {name : String} (h : isTypeName name) : Bare name.toList := by
  obtain ⟨x, rest, he, _, hp⟩ := exists_of_isTypeName h
  exact he ▸ bare_of_isPlain (List.cons_ne_nil _ _) fun y hy => (hp y hy).left

end Bare

namespace Expression

variable {declared : String → Bool}

theorem atom?_keyword {k : Keyword} : atom? declared k.name.toList = some (.primitive k) := by
  simp only [atom?, String.ofList_toList, Keyword.ofName?_name]

theorem atom?_literal {text : List Char} {l : Literal} (hk : ∀ k : Keyword, k.name.toList ≠ text)
    (h : Literal.ofText? text = some l) : atom? declared text = some (.literal l) := by
  have hn : Keyword.ofName? (.ofList text) = none := by
    cases hf : Keyword.ofName? (.ofList text) with
    | none => rfl
    | some k => exact absurd (by simp [Keyword.name_of_ofName? hf]) (hk k)
  simp only [atom?, hn, h]

theorem atom?_quoted {quote : Char} {body : List Char} (hq : quote = '\'' ∨ quote = '"')
    (hb : quote ∉ body) :
    atom? declared (quote :: body ++ [quote]) = some (.literal (.string (.ofList body))) := by
  refine atom?_literal (fun k he => ?_) (Literal.ofText?_quoted hq hb)
  have hp : isPlain quote := k.isPlain_name quote (by simp [he])
  rcases hq with rfl | rfl <;> cases hp

theorem atom?_number {text : List Char} (h : isNumber text) :
    atom? declared text = some (.literal (.number (numberOfText text))) :=
  atom?_literal (fun k he => k.not_isNumber_name (he ▸ h)) (Literal.ofText?_of_isNumber h)

theorem atom?_bool (b : Bool) :
    atom? declared (Json.boolText b).toList = some (.literal (.bool b)) := by
  have hk : ∀ k : Keyword, k.name.toList ≠ (Json.boolText b).toList := by
    intro k
    cases b <;> cases k <;> decide
  exact atom?_literal hk (by cases b <;> decide)

theorem atom?_reference {name : String} (hd : declared name) (ht : isTypeName name)
    (hr : ¬isReserved name) : atom? declared name.toList = some (.reference name) := by
  have hk : Keyword.ofName? name = none := by
    simp only [isReserved, Bool.or_eq_true, not_or] at hr
    simpa using hr.left.left
  simp only [atom?, String.ofList_toList, hk, ofText?_eq_none_of_name ht hr, hd, if_true]

end Expression

end JsonShape

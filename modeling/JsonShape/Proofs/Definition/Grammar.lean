import Mathlib
import JsonShape.Proofs.Definition.Token

namespace JsonShape

-- White space around a text opens and closes nothing.
theorem solid_of_isBlank {text : List Char} (h : ∀ x ∈ text, isBlank x) : Solid text := by
  apply solid_of_forall
  intro x hx
  have hb := h x hx
  refine ⟨?_, ?_, ?_, ?_, ?_⟩ <;> (rintro rfl; revert hb; decide)

theorem Padded.solid {core text : List Char} (hp : Padded core text) (h : Solid core) : Solid text := by
  obtain ⟨hb, ha⟩ := hp
  exact ((solid_of_isBlank hb).append h).append (solid_of_isBlank ha)

theorem Padded.isBalanced {core text : List Char} (hp : Padded core text) (h : isBalanced core) :
    isBalanced text := by
  obtain @⟨before, after, hb, ha⟩ := hp
  have hc := isBalanced_iff.mp h
  have ha := isBalanced_iff.mp (isBalanced_of_solid (solid_of_isBlank ha))
  rw [isBalanced_iff, List.append_assoc, Scan.Passes.run_append (solid_of_isBlank hb)]
  rw [Scan.run] at hc ha ⊢
  rw [List.foldlM_append, hc, Option.bind_eq_bind, Option.bind_some, ha]

theorem intercalate_concat {first last : List Char} {middle : List (List Char)} :
    ['|'].intercalate (first :: (middle ++ [last])) =
      first ++ (middle.flatMap fun part => '|' :: part) ++ '|' :: last := by
  induction middle generalizing first with
  | nil => simp [List.intercalate_cons_cons]
  | cons part rest hi => simp [List.intercalate_cons_cons, hi]

theorem Padded.intercalate {first last start ending : List Char} {middle : List (List Char)}
    (hs : ∀ x ∈ start, isBlank x) (he : ∀ x ∈ ending, isBlank x) :
    Padded (['|'].intercalate (first :: (middle ++ [last])))
      (['|'].intercalate ((start ++ first) :: (middle ++ [last ++ ending]))) := by
  have hi : ['|'].intercalate ((start ++ first) :: (middle ++ [last ++ ending])) =
      start ++ ['|'].intercalate (first :: (middle ++ [last])) ++ ending := by
    simp [intercalate_concat]
  exact hi ▸ .intro hs he

namespace Expression

-- The kinds of phrases of the grammar.
inductive Phrase
  | definition
  | union
  | member

-- What a member of a union adds to it. A member that is a union itself is one in parentheses, and adds
-- its own members.
def alternatives : Node → List Node
  | .union members => members
  | node           => [node]

-- The text is a phrase of this kind, and the node is the tree of the phrase.
inductive Derives (declared : String → Bool) : Phrase → List Char → Node → Prop
  | keyword (k : Keyword) : Derives declared .member k.name.toList (.primitive k)
  | quoted : quote = '\'' ∨ quote = '"' → quote ∉ body →
      Derives declared .member (quote :: body ++ [quote]) (.literal (.string (.ofList body)))
  | number (n : Numeral) : Derives declared .member n.text (.literal (.number n.value))
  | truth : Derives declared .member "true".toList (.literal (.bool true))
  | falsehood : Derives declared .member "false".toList (.literal (.bool false))
  | name : declared name → Derives declared .member name.toList (.reference name)
  | list : (Derives declared .member text item) → Derives declared .member (text ++ ['[', ']']) (.list item)
  | group : (Derives declared .union text node) → Derives declared .member ('(' :: text ++ [')']) node
  | single : (Derives declared .member text node) → Derives declared .union text node
  | several {parts : List (List Char × Node)} : 2 ≤ parts.length →
      (∀ part ∈ parts, Derives declared .member part.fst part.snd) →
      Derives declared .union (['|'].intercalate (parts.map Prod.fst))
        (.union ((parts.map Prod.snd).flatMap alternatives))
  | plain : (Derives declared .union text node) → Derives declared .definition text node
  | optional : (Derives declared .union text node) →
      Derives declared .definition (text ++ ['?']) (.optional node)
  -- White space may stand around every phrase, so around every token.
  | spaced : (Derives declared phrase core node) → Padded core text → Derives declared phrase text node

theorem splice_eq_alternatives : splice = alternatives := by
  funext node
  cases node <;> rfl

section Parser

variable {declared : String → Bool} {text core : List Char} {node : Node}

section Union

variable {first second : List Char} {more : List (List Char)}

theorem parseUnion_of_unbalanced (h : splitUnion? (trim text) = none) :
    parseUnion declared text = .error (.unknownType (.ofList (trim text))) := by
  rw [parseUnion]
  split
  case h_1    => rfl
  case h_2 hs => cases h.symm.trans hs
  case h_3 hs => cases h.symm.trans hs

theorem parseUnion_of_single (h : splitUnion? (trim text) = some (first, [])) :
    parseUnion declared text = parseMember declared (trim text) := by
  rw [parseUnion]
  split
  case h_1 hs => cases h.symm.trans hs
  case h_2    => rfl
  case h_3 hs => cases h.symm.trans hs

theorem parseUnion_of_several (h : splitUnion? (trim text) = some (first, second :: more)) :
    parseUnion declared text =
      (parseMembers declared (first :: second :: more)).map fun nodes =>
        .union (nodes.flatMap alternatives) := by
  rw [parseUnion]
  split
  case h_1 hs => cases h.symm.trans hs
  case h_2 hs => cases h.symm.trans hs
  case h_3 hs =>
    cases h.symm.trans hs
    rw [splice_eq_alternatives]
    cases parseMembers declared (first :: second :: more) <;> rfl

theorem parseUnion_padded (h : Padded core text) : parseUnion declared text = parseUnion declared core := by
  have ht := h.trim_eq
  rcases hs : splitUnion? (trim core) with - | ⟨first, - | ⟨second, more⟩⟩
  case none      => rw [parseUnion_of_unbalanced (ht ▸ hs), parseUnion_of_unbalanced hs, ht]
  case some.nil  => rw [parseUnion_of_single (ht ▸ hs), parseUnion_of_single hs, ht]
  case some.cons => rw [parseUnion_of_several (ht ▸ hs), parseUnion_of_several hs]

end Union

theorem parseMember_of_list {item : List Char} (h : dropEnd? text ['[', ']'] = some item) :
    parseMember declared text = (parseMember declared (trimEnd item)).map .list := by
  rw [parseMember]
  split
  case h_2 hl => cases h.symm.trans hl
  case h_1 hl =>
    cases h.symm.trans hl
    cases parseMember declared (trimEnd item) <;> rfl

theorem parseMember_of_group {body : List Char} (hl : dropEnd? text ['[', ']'] = none)
    (h : groupBody? text = some body) : parseMember declared text = parseUnion declared body := by
  rw [parseMember]
  split
  case h_1 hi => cases hl.symm.trans hi
  case h_2 =>
    split
    case h_1 hg => cases h.symm.trans hg; rfl
    case h_2 hg => cases h.symm.trans hg

theorem parseMember_of_atom (hl : dropEnd? text ['[', ']'] = none) (hg : groupBody? text = none)
    (hn : text ≠ []) (h : atom? declared text = some node) : parseMember declared text = .ok node := by
  have he : ¬text.isEmpty := by simpa using hn
  rw [parseMember]
  split
  case h_1 hi => cases hl.symm.trans hi
  case h_2 =>
    split
    case h_1 hb => cases hg.symm.trans hb
    case h_2    => rw [if_neg he, h]

theorem parseMembers_map {parts : List (List Char × Node)}
    (h : ∀ part ∈ parts, parseMember declared (trim part.fst) = .ok part.snd) :
    parseMembers declared (parts.map Prod.fst) = .ok (parts.map Prod.snd) := by
  induction parts with
  | nil => simp only [List.map_nil, parseMembers]
  | cons part rest hi =>
    obtain ⟨hp, hr⟩ := List.forall_mem_cons.mp h
    simp only [List.map_cons]
    rw [parseMembers, hp, hi hr]

theorem parse_padded (h : Padded core text) :
    parse declared (.ofList text) = parse declared (.ofList core) := by
  simp only [parse, String.toList_ofList, h.trim_eq]

end Parser

variable {declared : String → Bool}

-- The parser reads the text as a member, also if it stands between two bars.
structure ReadsMember (declared : String → Bool) (text : List Char) (node : Node) : Prop where
  framed : Framed text
  solid  : Solid text
  parse  : parseMember declared text = .ok node

-- The parser reads the text as a union, also if it stands between two parentheses.
structure ReadsUnion (declared : String → Bool) (text : List Char) (node : Node) : Prop where
  framed   : Framed text
  balanced : isBalanced text
  parse    : parseUnion declared text = .ok node

section Acceptance

variable {text core gap : List Char} {node : Node}

namespace ReadsMember

theorem of_bare (hb : Bare text) (ha : atom? declared text = some node) :
    ReadsMember declared text node where
  framed := hb.toFramed
  solid  := hb.solid
  parse  := by
    have hl : dropEnd? text ['[', ']'] = none := dropEnd?_eq_none ['['] hb.noList
    exact parseMember_of_atom hl (groupBody?_eq_none hb.noGroup) hb.ne_nil ha

theorem list (h : ReadsMember declared core node) (hg : ∀ x ∈ gap, isBlank x) :
    ReadsMember declared (core ++ gap ++ ['[', ']']) (.list node) where
  framed := by
    have hf : Framed (core ++ (gap ++ ['[']) ++ [']']) :=
      h.framed.append (.singleton (by decide) (by decide)) _
    simpa using hf
  solid  := (h.solid.append (solid_of_isBlank hg)).append (solid_of_forall (by simp))
  parse  := by
    rw [parseMember_of_list dropEnd?_append, trimEnd_append hg, h.framed.trimEnd, h.parse]
    rfl

-- Nothing in a member is taken for a bar, so it is the one member of a union.
theorem union (h : ReadsMember declared text node) : ReadsUnion declared text node where
  framed   := h.framed
  balanced := isBalanced_of_solid h.solid
  parse    := by
    have hs : splitUnion? (trim text) = some (text, []) :=
      h.framed.trim.symm ▸ splitUnion?_of_solid h.solid
    rw [parseUnion_of_single hs, h.framed.trim, h.parse]

end ReadsMember

theorem ReadsUnion.group (h : ReadsUnion declared core node) (hp : Padded core text) :
    ReadsMember declared ('(' :: text ++ [')']) node where
  framed := .append (.singleton (by decide) (by decide)) (.singleton (by decide) (by decide)) text
  solid  := solid_group (hp.isBalanced h.balanced)
  parse  := by
    have hl : ('(' :: text ++ [')']).getLast? ≠ some ']' := by
      rw [List.getLast?_concat]
      decide
    have hb := groupBody?_group (hp.isBalanced h.balanced)
    rw [parseMember_of_group (dropEnd?_eq_none ['['] hl) hb, parseUnion_padded hp, h.parse]

theorem exists_ends {parts : List (List Char × Node)} (h : 2 ≤ parts.length) :
    ∃ first middle last, parts = first :: (middle ++ [last]) := by
  cases parts with
  | nil => cases h
  | cons first rest =>
    obtain rfl | ⟨middle, last, rfl⟩ := rest.eq_nil_or_concat'
    · simp at h
    · exact ⟨first, middle, last, rfl⟩

-- What the parser makes of a phrase. White space around it does not matter.
def Reads (declared : String → Bool) : Phrase → List Char → Node → Prop
  | .member, text, node     => ∃ core, Padded core text ∧ ReadsMember declared core node
  | .union, text, node      => ∃ core, Padded core text ∧ ReadsUnion declared core node
  | .definition, text, node => parse declared (.ofList text) = .ok node

theorem Reads.spaced {phrase : Phrase} (h : Reads declared phrase core node) (hp : Padded core text) :
    Reads declared phrase text node := by
  cases phrase with
  | definition => exact (parse_padded hp).trans h
  | union | member =>
    obtain ⟨inner, hi, h⟩ := h
    exact ⟨inner, hi.trans hp, h⟩

theorem Reads.solid (h : Reads declared .member text node) :
    Solid text ∧ parseMember declared (trim text) = .ok node := by
  obtain ⟨core, hp, h⟩ := h
  exact ⟨hp.solid h.solid, by rw [hp.trim_eq, h.framed.trim, h.parse]⟩

section Several

variable {parts : List (List Char × Node)}

theorem ReadsUnion.of_members (hl : 2 ≤ parts.length)
    (hf : Framed (['|'].intercalate (parts.map Prod.fst)))
    (h : ∀ part ∈ parts, Reads declared .member part.fst part.snd) :
    ReadsUnion declared (['|'].intercalate (parts.map Prod.fst))
      (.union ((parts.map Prod.snd).flatMap alternatives)) where
  framed   := hf
  balanced := isBalanced_intercalate (List.forall_mem_map.mpr fun part hm => (h part hm).solid.left)
  parse    := by
    have hs := List.forall_mem_map.mpr fun part hm => (h part hm).solid.left
    have hm := parseMembers_map fun part hm => (h part hm).solid.right
    rcases parts with - | ⟨first, - | ⟨second, more⟩⟩
    case nil       => cases hl
    case cons.nil  => simp at hl
    case cons.cons =>
      rw [List.map_cons, List.map_cons] at hs hm hf ⊢
      have hu := splitUnion?_intercalate hs
      rw [← hf.trim] at hu
      rw [parseUnion_of_several hu, hm]
      rfl

-- White space in front of the first member and behind the last one is white space around the union.
theorem Reads.several (hl : 2 ≤ parts.length)
    (h : ∀ part ∈ parts, Reads declared .member part.fst part.snd) :
    Reads declared .union (['|'].intercalate (parts.map Prod.fst))
      (.union ((parts.map Prod.snd).flatMap alternatives)) := by
  obtain ⟨⟨_, n₁⟩, middle, ⟨_, n₂⟩, rfl⟩ := exists_ends hl
  simp only [List.forall_mem_cons, List.forall_mem_append, List.not_mem_nil, false_imp_iff,
    implies_true, and_true] at h
  obtain ⟨⟨c₁, hp₁, h₁⟩, hm, c₂, hp₂, h₂⟩ := h
  obtain @⟨b₁, a₁, hb₁, ha₁⟩ := hp₁
  obtain @⟨b₂, a₂, hb₂, ha₂⟩ := hp₂
  have hr : ∀ part ∈ (c₁ ++ a₁, n₁) :: (middle ++ [(b₂ ++ c₂, n₂)]),
      Reads declared .member part.fst part.snd := by
    simp only [List.forall_mem_cons, List.forall_mem_append, List.not_mem_nil, false_imp_iff,
      implies_true, and_true]
    exact ⟨⟨c₁, .after ha₁, h₁⟩, hm, c₂, .before hb₂, h₂⟩
  have hf := h₁.framed.append h₂.framed
    (a₁ ++ ((middle.map Prod.fst).flatMap fun part => '|' :: part) ++ '|' :: b₂)
  have hu := ReadsUnion.of_members (by simp) (by simpa [intercalate_concat] using hf) hr
  simp only [List.map_cons, List.map_append, List.map_nil] at hu ⊢
  refine ⟨_, ?_, hu⟩
  rw [List.append_assoc b₁]
  exact .intercalate hb₁ ha₂

end Several

theorem ReadsUnion.definition (h : ReadsUnion declared text node) :
    Expression.parse declared (.ofList text) = .ok node := by
  simp only [Expression.parse, String.toList_ofList, h.framed.trim, h.framed.not_marked, h.parse]

theorem ReadsUnion.optional (h : ReadsUnion declared core node) (hg : ∀ x ∈ gap, isBlank x) :
    Expression.parse declared (.ofList (core ++ gap ++ ['?'])) = .ok (.optional node) := by
  have ht : trim (core ++ gap ++ ['?']) = core ++ gap ++ ['?'] := by
    obtain ⟨x, hx, hb⟩ := h.framed.head
    apply trim_eq_self
    case hh => simp [hx, hb]
    case hl => simp; decide
  simp only [Expression.parse, String.toList_ofList, ht, dropEnd?_append, parseUnion_padded (.after hg),
    h.parse]
  rfl

end Acceptance

-- The names are such as may be declared, so none of them is a keyword, a truth value or a number.
theorem reads_of_derives (hd : ∀ name, declared name → isTypeName name ∧ ¬isReserved name)
    {phrase : Phrase} {text : List Char} {node : Node} (h : Derives declared phrase text node) :
    Reads declared phrase text node := by
  induction h with
  | keyword k    => exact ⟨_, .refl, .of_bare k.bare_name atom?_keyword⟩
  | quoted hq hb => exact ⟨_, .refl, .of_bare (bare_quoted hq hb) (atom?_quoted hq hb)⟩
  | number n =>
    have ha : atom? declared n.text = some (.literal (.number n.value)) :=
      n.numberOfText_text ▸ atom?_number n.isNumber_text
    exact ⟨_, .refl, .of_bare (bare_of_isNumber n.isNumber_text) ha⟩
  | truth        => exact ⟨_, .refl, .of_bare (bare_boolText true) (atom?_bool true)⟩
  | falsehood    => exact ⟨_, .refl, .of_bare (bare_boolText false) (atom?_bool false)⟩
  | name hn =>
    obtain ⟨ht, hr⟩ := hd _ hn
    exact ⟨_, .refl, .of_bare (bare_of_isTypeName ht) (atom?_reference hn ht hr)⟩
  | list _ hi =>
    obtain ⟨core, hp, hi⟩ := hi
    obtain @⟨before, after, hb, ha⟩ := hp
    refine ⟨core ++ after ++ ['[', ']'], ?_, hi.list ha⟩
    simpa using Padded.before hb
  | group _ hi =>
    obtain ⟨core, hp, hi⟩ := hi
    exact ⟨_, .refl, hi.group hp⟩
  | single _ hi =>
    obtain ⟨core, hp, hi⟩ := hi
    exact ⟨core, hp, hi.union⟩
  | several hl _ hi => exact .several hl hi
  | plain _ hi =>
    obtain ⟨core, hp, hi⟩ := hi
    exact (parse_padded hp).trans hi.definition
  | optional _ hi =>
    obtain ⟨core, hp, hi⟩ := hi
    obtain @⟨before, after, hb, ha⟩ := hp
    have hp : Padded (core ++ after ++ ['?']) (before ++ core ++ after ++ ['?']) := by
      simpa using Padded.before hb
    exact (parse_padded hp).trans (hi.optional ha)
  | spaced _ hp hi => exact hi.spaced hp

theorem parse_of_derives (hd : ∀ name, declared name → isTypeName name ∧ ¬isReserved name) {text : String}
    {node : Node} (h : Derives declared .definition text.toList node) : parse declared text = .ok node := by
  have hr : Expression.parse declared (.ofList text.toList) = .ok node := reads_of_derives hd h
  rwa [String.ofList_toList] at hr

-- The grammar is unambiguous: the parser finds the one tree that there is.
theorem Derives.unique (hd : ∀ name, declared name → isTypeName name ∧ ¬isReserved name)
    {text : List Char} {node other : Node} (h : Derives declared .definition text node)
    (ho : Derives declared .definition text other) : node = other := by
  have hn : Expression.parse declared (.ofList text) = .ok node := reads_of_derives hd h
  have hp : Expression.parse declared (.ofList text) = .ok other := reads_of_derives hd ho
  exact Except.ok.inj (hn.symm.trans hp)

section Derivations

theorem quoted_of_unquote? {quote : Char} {text body : List Char} (h : unquote? quote text = some body) :
    text = quote :: body ++ [quote] ∧ quote ∉ body := by
  cases text with
  | nil => cases h
  | cons x rest =>
    simp only [unquote?] at h
    split at h
    case isFalse => cases h
    case isTrue hq =>
      cases h
      obtain ⟨rfl, hl, hn⟩ := hq
      obtain ⟨body, rfl⟩ := List.getLast?_eq_some_iff.mp hl
      simpa using hn

theorem derives_of_ofText? {text : List Char} {l : Literal} (h : Literal.ofText? text = some l) :
    Derives declared .member text (.literal l) := by
  simp only [Literal.ofText?] at h
  split at h
  case isTrue ht => cases h; exact ht ▸ .truth
  split at h
  case isTrue ht => cases h; exact ht ▸ .falsehood
  split at h
  case h_1 body hb =>
    cases h
    simp only [Option.orElse_eq_orElse, Option.orElse_eq_or, Option.or_eq_some_iff] at hb
    rcases hb with hb | ⟨_, hb⟩
    all_goals obtain ⟨rfl, hn⟩ := quoted_of_unquote? hb
    · exact .quoted (.inl rfl) hn
    · exact .quoted (.inr rfl) hn
  case h_2 =>
    split at h <;> cases h
    case isTrue hn =>
      obtain ⟨n, rfl⟩ := Numeral.exists_of_isNumber hn
      exact n.numberOfText_text ▸ .number n

theorem derives_of_atom? {text : List Char} {node : Node} (h : atom? declared text = some node) :
    Derives declared .member text node := by
  simp only [atom?] at h
  split at h
  case h_1 k hk =>
    cases h
    have ht : k.name.toList = text := by simp [Keyword.name_of_ofName? hk]
    exact ht ▸ .keyword k
  split at h
  case h_1 hl => cases h; exact derives_of_ofText? hl
  case h_2 =>
    split at h <;> cases h
    case isTrue hn =>
      have hd := Derives.name hn
      rwa [String.toList_ofList] at hd

mutual

theorem derives_of_parseUnion {text : List Char} {node : Node}
    (h : parseUnion declared text = .ok node) : Derives declared .union text node := by
  have hl := length_trim_le text
  rw [parseUnion] at h
  split at h
  case h_1 => cases h
  case h_2 => exact .spaced (.single (derives_of_parseMember h)) (padded_trim text)
  case h_3 first second others hs =>
    have := length_of_splitUnion? hs
    split at h
    case h_1 => cases h
    case h_2 nodes hp =>
      cases h
      obtain ⟨parts, ht, rfl, hd⟩ := derives_of_parseMembers hp
      have hw : trim text = ['|'].intercalate (parts.map Prod.fst) :=
        ht ▸ Scan.eq_intercalate_of_split hs
      have hn : parts.length = others.length + 2 := by simpa using congrArg List.length ht
      have hu := Derives.several (by omega) hd
      rw [splice_eq_alternatives]
      exact .spaced (hw ▸ hu) (padded_trim text)
termination_by 3 * text.length + 4
decreasing_by
  · omega
  · simp only [List.length_cons] at *; omega

theorem derives_of_parseMembers {texts : List (List Char)} {nodes : List Node}
    (h : parseMembers declared texts = .ok nodes) :
    ∃ parts : List (List Char × Node), parts.map Prod.fst = texts ∧ parts.map Prod.snd = nodes ∧
      ∀ part ∈ parts, Derives declared .member part.fst part.snd := by
  match texts with
  | [] =>
    rw [parseMembers] at h
    cases h
    exact ⟨[], rfl, rfl, by simp⟩
  | text :: rest =>
    have := length_trim_le text
    rw [parseMembers] at h
    split at h
    case h_1 => cases h
    case h_2 node hp =>
      split at h
      case h_1 => cases h
      case h_2 others hr =>
        cases h
        obtain ⟨parts, rfl, rfl, hd⟩ := derives_of_parseMembers hr
        have hm := Derives.spaced (derives_of_parseMember hp) (padded_trim text)
        exact ⟨(text, node) :: parts, rfl, rfl, List.forall_mem_cons.mpr ⟨hm, hd⟩⟩
termination_by 3 * (texts.flatten.length + texts.length)
decreasing_by all_goals simp only [List.flatten_cons, List.length_append, List.length_cons] at *; omega

theorem derives_of_parseMember {text : List Char} {node : Node}
    (h : parseMember declared text = .ok node) : Derives declared .member text node := by
  rw [parseMember] at h
  split at h
  case h_1 item hl =>
    have := length_of_dropEnd? hl
    split at h
    case h_1 => cases h
    case h_2 hp =>
      cases h
      rw [eq_append_of_dropEnd? hl]
      exact .list (.spaced (derives_of_parseMember hp) (padded_trimEnd item))
  case h_2 =>
    split at h
    case h_1 body hg =>
      have := length_of_groupBody? hg
      rw [eq_of_groupBody? hg]
      exact .group (derives_of_parseUnion h)
    case h_2 =>
      split at h
      case h_2 => cases h
      case h_1 ha =>
        cases h
        split at ha
        case isTrue => cases ha
        case isFalse => exact derives_of_atom? ha
termination_by 3 * text.length
decreasing_by
  · simp only [List.length_cons, List.length_nil] at *; omega
  · omega

end

theorem derives_of_parse {text : String} {node : Node} (h : parse declared text = .ok node) :
    Derives declared .definition text.toList node := by
  simp only [parse] at h
  split at h
  case h_1 inner hi =>
    cases hp : parseUnion declared inner <;> rw [hp] at h <;> cases h
    have hd := Derives.optional (derives_of_parseUnion hp)
    rw [← eq_append_of_dropEnd? hi] at hd
    exact .spaced hd (padded_trim _)
  case h_2 => exact .spaced (.plain (derives_of_parseUnion h)) (padded_trim _)

end Derivations

-- A text is accepted just if the grammar derives it, and its node is the tree of the derivation.
theorem parse_iff_derives (hd : ∀ name, declared name → isTypeName name ∧ ¬isReserved name)
    {text : String} {node : Node} :
    parse declared text = .ok node ↔ Derives declared .definition text.toList node := by
  constructor
  case mp => exact derives_of_parse
  case mpr =>
    intro h
    have hr : Expression.parse declared (.ofList text.toList) = .ok node := reads_of_derives hd h
    rwa [String.ofList_toList] at hr

-- A quote hides bars, parentheses and the other kind of quote. The brackets bind the string alone, and
-- the union in parentheses is spliced.
theorem parse_iff_derives_nested :
    (∀ name, ["user"].contains name → isTypeName name ∧ ¬isReserved name) ∧
    Derives ["user"].contains .definition " 'a\"|(' [] | ( user |\"')\") ? ".toList
      (.optional (.union
        [.list (.literal (.string "a\"|(")), .reference "user", .literal (.string "')")])) := by
  have hd : ∀ name, ["user"].contains name → isTypeName name ∧ ¬isReserved name := by
    intro name hn
    simp only [List.contains_cons, List.contains_nil, Bool.or_false, beq_iff_eq] at hn
    subst hn
    decide
  refine ⟨hd, ?_⟩
  apply (parse_iff_derives hd).mp
  cbv

end Expression

end JsonShape

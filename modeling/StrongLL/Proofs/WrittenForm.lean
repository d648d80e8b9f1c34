import StrongLL.Grammar.Printer
import StrongLL.Grammar.Reader
import StrongLL.Proofs.BodyImage
import StrongLL.Proofs.ExactSets

/-!
# StrongLL.Proofs.WrittenForm

The written form of a body determines what the body reads:

* `Node.choices`         — what is left of a node in its written form: the alternatives, each as a
  list of parts, without groups within groups.
* `Node.derives_choices_iff` — nothing that matters is lost.
* `ReadsAs`, `ReadsAsParts` — a text is read as a body, or as parts of one, wherever it stands.
* `Names.Legible`        — names that can be told from each other and from all else.
* `Node.read?_text`      — the written form is read as what is left of the node.
* `Grammar.derives_iff_of_text_eq` — so nodes with one written form read the same.
-/

namespace StrongLL

/-! ## What is written -/

namespace Node

mutual

/-- The alternatives of a node, each as a list of parts. The empty sequence is written `()`, which
is a part without anything in it. -/
def choices : Node → List (List Node)
  | terminal t _ => [[terminal t 0]]
  | sequence parts => [if parts.isEmpty then [ofChoices [[]]] else partChoices parts]
  | optional body _ => [[optional (ofChoices body.choices) 0]]
  | repetition body _ atLeastOne => [[repetition (ofChoices body.choices) 0 atLeastOne]]
  | alternation alternatives _ _ => alternativeChoices alternatives
  | ruleRef r _ => [[ruleRef r 0]]

def partChoices : List Node → List Node
  | [] => []
  | n :: rest =>
    (if n.isCompound then [ofChoices n.choices] else n.choices.flatten) ++ partChoices rest

def alternativeChoices : List Node → List (List Node)
  | [] => []
  | n :: rest => n.choices ++ alternativeChoices rest

end

/-- A node as a part of a sequence. -/
def part (n : Node) : List Node :=
  if n.isCompound then [ofChoices n.choices] else n.choices.flatten

def partText (names : Names) (n : Node) : String :=
  if n.isCompound then "(" ++ n.text names ++ ")" else n.text names

theorem partChoices_eq (ns : List Node) : partChoices ns = ns.flatMap part := by
  induction ns with
  | nil => simp [partChoices]
  | cons n ns ih => simp [partChoices, part, ih]

theorem alternativeChoices_eq (ns : List Node) : alternativeChoices ns = ns.flatMap choices := by
  induction ns with
  | nil => simp [alternativeChoices]
  | cons n ns ih => simp [alternativeChoices, ih]

theorem partTexts_eq (names : Names) (ns : List Node) :
    partTexts names ns = ns.map (partText names) := by
  induction ns with
  | nil => simp [partTexts]
  | cons n ns ih => simp [partTexts, partText, ih]

theorem alternativeTexts_eq (names : Names) (ns : List Node) :
    alternativeTexts names ns = ns.map (text names) := by
  induction ns with
  | nil => simp [alternativeTexts]
  | cons n ns ih => simp [alternativeTexts, ih]

/-- Only a choice has several alternatives. -/
theorem choices_eq_part {n : Node} (h : n.isCompound = false) : n.choices = [n.part] := by
  rw [part, h]
  cases n with
  | sequence | alternation => simp [isCompound] at h
  | terminal | optional | repetition | ruleRef => simp [choices]

end Node

/-! ## What it means -/

namespace Node

variable {g : Grammar} {v : Vocabulary} {w : List TreeNode}

theorem derives_ofChoices_iff {choices : List (List Node)} :
    Derives g v [.node (ofChoices choices)] w ↔
      ∃ parts ∈ choices, Derives g v (parts.map .node) w := by
  rw [ofChoices, derives_alternation_iff]
  simp only [List.mem_map, exists_exists_and_eq_and, derives_sequence_iff]

theorem derives_part_iff {n : Node} :
    Derives g v (n.part.map .node) w ↔ Derives g v [.node (ofChoices n.choices)] w := by
  cases h : n.isCompound with
  | true => simp [part, h]
  | false => simp [choices_eq_part h, derives_ofChoices_iff]

/-- Parts that read the same, one by one, read the same together. -/
theorem derives_parts_iff {ns : List Node}
    (h : ∀ n ∈ ns, ∀ w, Derives g v [.node n] w ↔ Derives g v [.node (ofChoices n.choices)] w) :
    Derives g v (ns.map .node) w ↔ Derives g v ((ns.flatMap part).map .node) w := by
  induction ns generalizing w with
  | nil => rfl
  | cons n ns ih =>
    obtain ⟨hn, hns⟩ := List.forall_mem_cons.mp h
    rw [List.map_cons, ← List.singleton_append, List.flatMap_cons, List.map_append,
      derives_append_iff, derives_append_iff]
    simp only [hn, derives_part_iff, ih hns]

/-- Groups within groups and the numbers of occurrences have no part in what is read. -/
theorem derives_choices_iff {types rules : Nat} {n : Node} (hn : n.Proper types rules) :
    ∀ w, Derives g v [.node n] w ↔ Derives g v [.node (ofChoices n.choices)] w := by
  induction hn with
  | terminal =>
    intro w
    simp only [choices, derives_ofChoices_iff, List.mem_singleton, exists_eq_left, List.map_cons,
      List.map_nil]
    constructor
    · intro h
      cases h with
      | terminal ht hrest => exact .terminal ht hrest
    · intro h
      cases h with
      | terminal ht hrest => exact .terminal ht hrest
  | @sequence parts _ ih =>
    intro w
    rw [derives_sequence_iff, derives_parts_iff ih, choices, partChoices_eq,
      derives_ofChoices_iff]
    cases parts with
    | nil => simp [derives_ofChoices_iff]
    | cons n rest => simp
  | optional _ ih =>
    intro w
    simp [choices, derives_ofChoices_iff, derives_optional_iff, ih]
  | @repetition body i atLeastOne _ ih =>
    intro w
    cases atLeastOne with
    | false =>
      simp [choices, derives_ofChoices_iff, derives_many_iff, derives_loop_iff, ih]
    | true => simp [choices, derives_ofChoices_iff, derives_atLeastOne_iff, ih]
  | alternation _ _ ih =>
    intro w
    rw [derives_alternation_iff, choices, alternativeChoices_eq, derives_ofChoices_iff]
    simp only [List.mem_flatMap]
    constructor
    · rintro ⟨n, hn, h⟩
      obtain ⟨parts, hparts, h⟩ := derives_ofChoices_iff.mp ((ih n hn w).mp h)
      exact ⟨parts, ⟨n, hn, hparts⟩, h⟩
    · rintro ⟨parts, ⟨n, hn, hparts⟩, h⟩
      exact ⟨n, hn, (ih n hn w).mpr (derives_ofChoices_iff.mpr ⟨parts, hparts, h⟩)⟩
  | ruleRef =>
    intro w
    simp only [choices, derives_ofChoices_iff, List.mem_singleton, exists_eq_left, List.map_cons,
      List.map_nil]
    constructor
    · intro h
      obtain ⟨children, rfl, htree⟩ := h.cases_ruleRef
      exact htree.derives 0
    · intro h
      obtain ⟨children, rfl, htree⟩ := h.cases_ruleRef
      exact htree.derives _

end Node

/-! ## How it is read -/

/-- A name with something in it, and no mark. -/
def IsPlain (name : String) : Prop := name ≠ "" ∧ ∀ c ∈ name.toList, c ∉ Reader.marks

instance (name : String) : Decidable (IsPlain name) :=
  inferInstanceAs (Decidable (name ≠ "" ∧ ∀ c ∈ name.toList, c ∉ Reader.marks))

/-- Wherever a body begins, the text is read as these alternatives of it. -/
def ReadsAs (node? : String → Option Node) (text : String) (choices : List (List Node)) : Prop :=
  ∀ around done, ∃ s, Reader.read node? ⟨around, ⟨done, []⟩, []⟩ text.toList = some s ∧
    s.endAlternative = ⟨around, ⟨done ++ choices, []⟩, []⟩

/-- Wherever a part begins, the text is read as these parts. -/
def ReadsAsParts (node? : String → Option Node) (text : String) (ns : List Node) : Prop :=
  ∀ around done parts, Reader.read node? ⟨around, ⟨done, parts⟩, []⟩ text.toList =
    some ⟨around, ⟨done, parts ++ ns⟩, []⟩

namespace Reader

variable {node? : String → Option Node} {around : List (Bracket × Reading)}
  {done : List (List Node)} {parts : List Node} {s : Reader}

@[simp] theorem read_nil {present : Reading} :
    read node? ⟨around, present, []⟩ [] = some ⟨around, present, []⟩ := rfl

/-- A mark ends what is read before it, and after it reading begins again. -/
theorem read_append_mark {c : Char} (hc : c ∈ marks) (xs ys : List Char) :
    read node? s (xs ++ c :: ys) =
      ((read node? s xs).bind (·.mark c)).bind fun s => read node? s ys := by
  unfold read
  rw [List.foldlM_append]
  simp [List.foldlM_cons, next, hc, Option.bind_assoc]

theorem foldlM_next {cs : List Char} (hcs : ∀ c ∈ cs, c ∉ marks) :
    cs.foldlM (next node?) s = some { s with name := s.name ++ cs } := by
  induction cs generalizing s with
  | nil => simp
  | cons c cs ih =>
    obtain ⟨hc, hcs⟩ := List.forall_mem_cons.mp hcs
    simp [List.foldlM_cons, next, hc, ih hcs]

theorem mark_left (b : Bracket) : s.mark b.left = some (s.enter b) := by cases b <;> rfl

theorem mark_right (b : Bracket) : s.mark b.right = s.leave b := by cases b <;> rfl

theorem left_mem_marks (b : Bracket) : b.left ∈ marks := by cases b <;> decide

theorem right_mem_marks (b : Bracket) : b.right ∈ marks := by cases b <;> decide

end Reader

section

variable {node? : String → Option Node} {text more : String}

open Reader

theorem readsAsParts_name {n : Node} (hplain : IsPlain text) (hn : node? text = some n) :
    ReadsAsParts node? text [n] := by
  intro around done parts
  have hne : text.toList ≠ [] := by simpa using hplain.1
  simp [Reader.read, foldlM_next hplain.2, endName, hne, hn, add]

theorem readsAsParts_empty : ReadsAsParts node? "" [] := by
  intro around done parts
  simp

theorem ReadsAsParts.readsAs {ns : List Node} (h : ReadsAsParts node? text ns) :
    ReadsAs node? text [ns] :=
  fun around done => ⟨_, h around done [], rfl⟩

/-- What is read within brackets becomes one part of what is read around them. -/
theorem ReadsAs.enclosed {choices : List (List Node)} (h : ReadsAs node? text choices) (b : Bracket)
    (hmore : more.toList = b.left :: text.toList ++ [b.right]) :
    ReadsAsParts node? more [b.node (.ofChoices choices)] := by
  intro around done parts
  obtain ⟨s, hread, hs⟩ := h ((b, ⟨done, parts⟩) :: around) []
  have hleave : s.leave b =
      some ⟨around, ⟨done, parts ++ [b.node (.ofChoices choices)]⟩, []⟩ := by
    have haround : s.around = (b, ⟨done, parts⟩) :: around := congrArg Reader.around hs
    have hname : s.name = [] := congrArg Reader.name hs
    simp [leave, haround, hname, hs, add]
  rw [hmore, List.cons_append, ← List.nil_append (b.left :: _),
    read_append_mark (left_mem_marks b), read_nil, Option.bind_some, mark_left, Option.bind_some,
    read_append_mark (right_mem_marks b)]
  simp only [enter, hread, Option.bind_some, mark_right, hleave, read_nil]

theorem ReadsAsParts.repeated {body : Node} {i : Nat}
    (h : ReadsAsParts node? text [.repetition body i false])
    (hmore : more.toList = text.toList ++ ['+']) :
    ReadsAsParts node? more [.repetition body i true] := by
  intro around done parts
  rw [hmore, read_append_mark (by decide), h, Option.bind_some]
  simp [mark, repeatLast]

theorem ReadsAsParts.append {ns ms : List Node} (h : ReadsAsParts node? text ns)
    (hmore : ReadsAsParts node? more ms) : ReadsAsParts node? (text ++ " " ++ more) (ns ++ ms) := by
  intro around done parts
  have htext : (text ++ " " ++ more).toList = text.toList ++ ' ' :: more.toList := by simp
  rw [htext, read_append_mark (by decide), h, Option.bind_some]
  simp [mark, hmore around done (parts ++ ns)]

theorem ReadsAs.append {cs ds : List (List Node)} (h : ReadsAs node? text cs)
    (hmore : ReadsAs node? more ds) : ReadsAs node? (text ++ " | " ++ more) (cs ++ ds) := by
  intro around done
  obtain ⟨s, hread, hs⟩ := h around done
  obtain ⟨t, hread', ht⟩ := hmore around (done ++ cs)
  refine ⟨t, ?_, by rw [ht, List.append_assoc]⟩
  have htext : (text ++ " | " ++ more).toList =
      text.toList ++ ' ' :: ([] ++ '|' :: ([] ++ ' ' :: more.toList)) := by simp
  have hname : s.name = [] := congrArg Reader.name hs
  have hblank : Reader.read node? s [] = some s := by simp [Reader.read, endName, hname]
  simp (disch := decide) only [htext, read_append_mark, hread, Option.bind_some, mark, hblank, hs,
    read_nil, hread']

end

/-! ## Reading what is written -/

/-- Each name of a type or a rule stands for that type or rule. -/
structure Names.Legible (names : Names) (node? : String → Option Node) (types rules : Nat) :
    Prop where
  typePlain {t : TypeId} : t < types → IsPlain (names.type t)
  rulePlain {r : RuleId} : r < rules → IsPlain (names.rule r)
  type {t : TypeId} : t < types → node? (names.type t) = some (.terminal t 0)
  rule {r : RuleId} : r < rules → node? (names.rule r) = some (.ruleRef r 0)

namespace Node

variable {names : Names} {node? : String → Option Node} {types rules : Nat}

/-- The written form of a node is read as what it stands for, be it a body or a part of one. -/
structure ReadsBack (names : Names) (node? : String → Option Node) (n : Node) : Prop where
  whole : ReadsAs node? (n.text names) n.choices
  part : ReadsAsParts node? (n.partText names) n.part

theorem ReadsBack.of_parts {n : Node} (hn : n.isCompound = false)
    (h : ReadsAsParts node? (n.text names) n.part) : n.ReadsBack names node? := by
  refine ⟨?_, ?_⟩
  · rw [choices_eq_part hn]
    exact h.readsAs
  · rwa [partText, hn]

/-- The parentheses around a compound part are those that are read. -/
theorem ReadsBack.of_compound {n : Node} (hn : n.isCompound = true)
    (h : ReadsAs node? (n.text names) n.choices) : n.ReadsBack names node? := by
  refine ⟨h, ?_⟩
  rw [Node.part, partText, if_pos hn, if_pos hn]
  exact h.enclosed .round (by simp [Bracket.left, Bracket.right])

theorem readsAsParts_sequence {ns : List Node} (h : ∀ n ∈ ns, n.ReadsBack names node?) :
    ReadsAsParts node? (" ".intercalate (partTexts names ns)) (partChoices ns) := by
  rw [partTexts_eq, partChoices_eq]
  induction ns with
  | nil => exact readsAsParts_empty
  | cons n ns ih =>
    obtain ⟨hn, hns⟩ := List.forall_mem_cons.mp h
    cases ns with
    | nil => simpa using hn.part
    | cons m ns =>
      rw [List.map_cons, List.map_cons, String.intercalate_cons_cons, List.flatMap_cons]
      exact hn.part.append (ih hns)

theorem readsAs_alternation {ns : List Node} (hne : ns ≠ [])
    (h : ∀ n ∈ ns, n.ReadsBack names node?) :
    ReadsAs node? (" | ".intercalate (alternativeTexts names ns)) (alternativeChoices ns) := by
  rw [alternativeTexts_eq, alternativeChoices_eq]
  induction ns with
  | nil => exact absurd rfl hne
  | cons n ns ih =>
    obtain ⟨hn, hns⟩ := List.forall_mem_cons.mp h
    cases ns with
    | nil => simpa using hn.whole
    | cons m ns =>
      rw [List.map_cons, List.map_cons, String.intercalate_cons_cons, List.flatMap_cons]
      exact hn.whole.append (ih (by simp) hns)

/-- No part and no alternative reads on into what stands after it, so the induction goes through
each of them by itself. -/
theorem readsBack (hnames : names.Legible node? types rules) {n : Node}
    (hn : n.Proper types rules) : n.ReadsBack names node? := by
  induction hn with
  | terminal ht =>
    exact .of_parts rfl (readsAsParts_name (hnames.typePlain ht) (hnames.type ht))
  | @sequence parts _ ih =>
    refine .of_compound rfl ?_
    cases parts with
    | nil =>
      have hempty : ReadsAs node? "" [[]] := readsAsParts_empty.readsAs
      have hround : ReadsAsParts node? "()" [ofChoices [[]]] := hempty.enclosed .round rfl
      exact hround.readsAs
    | cons n rest => exact (readsAsParts_sequence ih).readsAs
  | optional _ ih =>
    exact .of_parts rfl (ih.whole.enclosed .square (by simp [text, Bracket.left, Bracket.right]))
  | @repetition body i atLeastOne _ ih =>
    -- whether it is to occur at least once shows only after the bracket
    have hmany : ReadsAsParts node? ("\x7b" ++ body.text names ++ "\x7d")
        [.repetition (ofChoices body.choices) 0 false] :=
      ih.whole.enclosed .curly (by simp [Bracket.left, Bracket.right])
    refine .of_parts rfl ?_
    cases atLeastOne with
    | false =>
      have htext : (repetition body i false).text names = "\x7b" ++ body.text names ++ "\x7d" := by
        simp [text]
      rw [htext]
      exact hmany
    | true => exact hmany.repeated (by simp [text])
  | alternation hne _ ih => exact .of_compound rfl (readsAs_alternation hne ih)
  | ruleRef hr => exact .of_parts rfl (readsAsParts_name (hnames.rulePlain hr) (hnames.rule hr))

theorem read?_text (hnames : names.Legible node? types rules) {n : Node}
    (hn : n.Proper types rules) : read? node? (n.text names) = some (ofChoices n.choices) := by
  obtain ⟨s, hread, hs⟩ := (readsBack hnames hn).whole [] []
  have haround : s.around = [] := congrArg Reader.around hs
  rw [read?, Reader.start, hread]
  simp [haround, hs]

end Node

/-! ## The names of a grammar -/

/-- Among things of different names, the first of a name is the only one. -/
theorem findIdx?_of_nodup {α : Type} {f : α → String} {xs : List α} (h : (xs.map f).Nodup) {i : Nat}
    {x : α} (hx : xs[i]? = some x) : xs.findIdx? (f · = f x) = some i := by
  obtain ⟨hi, rfl⟩ := List.getElem?_eq_some_iff.mp hx
  refine List.findIdx?_eq_some_iff_getElem.mpr ⟨hi, by simp, fun j hj hsame => ?_⟩
  have hlength : (xs.map f).length = xs.length := List.length_map f
  have hjmap : j < (xs.map f).length := by omega
  have himap : i < (xs.map f).length := by omega
  have hsame : (xs.map f)[j] = (xs.map f)[i] := by simpa using hsame
  exact Nat.ne_of_lt hj ((List.Nodup.getElem_inj_iff h).mp hsame)

namespace Vocabulary

variable {v : Vocabulary} {t : TypeId}

theorem name_eq (ht : t < v.size) : v.name t = v.types[t].name := by
  rw [name, get?, List.getElem?_eq_getElem ht]

theorem name_mem_names (ht : t < v.size) : v.name t ∈ v.names := by
  rw [name_eq ht]
  exact List.mem_map_of_mem (List.getElem_mem ht)

theorem lookup_name (h : v.names.Nodup) (ht : t < v.size) : v.lookup (v.name t) = some t := by
  rw [name_eq ht]
  exact findIdx?_of_nodup h (List.getElem?_eq_getElem ht)

theorem lookup_eq_none {name : String} (h : name ∉ v.names) : v.lookup name = none := by
  refine List.findIdx?_eq_none_iff.mpr fun type htype => decide_eq_false fun hname => h ?_
  exact hname ▸ List.mem_map_of_mem htype

end Vocabulary

namespace Grammar

variable {g : Grammar} {v : Vocabulary} {r : RuleId}

def ruleNames (g : Grammar) : List String := g.rules.map (·.name)

theorem ruleText_eq (hr : r < g.size) : g.ruleText r = g.rules[r].name := by
  rw [ruleText, get?, List.getElem?_eq_getElem hr]

theorem ruleText_mem_ruleNames (hr : r < g.size) : g.ruleText r ∈ g.ruleNames := by
  rw [ruleText_eq hr]
  exact List.mem_map_of_mem (List.getElem_mem hr)

theorem lookup_ruleText (h : g.ruleNames.Nodup) (hr : r < g.size) :
    g.lookup (g.ruleText r) = some r := by
  rw [ruleText_eq hr]
  exact findIdx?_of_nodup h (List.getElem?_eq_getElem hr)

/-- The names of all token types and all rules are different, and plain. -/
structure PlainNames (g : Grammar) (v : Vocabulary) : Prop where
  nodup : (v.names ++ g.ruleNames).Nodup
  plain : ∀ name ∈ v.names ++ g.ruleNames, IsPlain name

/-- The type or the rule of a name. -/
def named? (g : Grammar) (v : Vocabulary) (name : String) : Option Node :=
  match v.lookup name with
  | some t => some (.terminal t 0)
  | none => (g.lookup name).map fun r => .ruleRef r 0

theorem PlainNames.legible (h : g.PlainNames v) :
    (g.names v).Legible (g.named? v) v.size g.size := by
  obtain ⟨htypes, hrules, hdifferent⟩ := List.nodup_append.mp h.nodup
  refine ⟨fun ht => ?_, fun hr => ?_, fun {t} ht => ?_, fun {r} hr => ?_⟩
  · exact h.plain _ (List.mem_append_left _ (Vocabulary.name_mem_names ht))
  · exact h.plain _ (List.mem_append_right _ (ruleText_mem_ruleNames hr))
  · have hlookup : v.lookup (v.name t) = some t := Vocabulary.lookup_name htypes ht
    simp only [named?, names, hlookup]
  · have hnone : v.lookup (g.ruleText r) = none := Vocabulary.lookup_eq_none fun htype =>
      hdifferent _ htype _ (ruleText_mem_ruleNames hr) rfl
    simp only [named?, names, hnone, lookup_ruleText hrules hr, Option.map_some]

/-- If the names of types and rules are different and have no blank, bracket, bar or plus sign in
them, nodes with the same written form read the same tokens as the same trees. So parentheses stand
wherever the grouping of sequences, choices, optional parts and repetitions matters. -/
theorem derives_iff_of_text_eq (hnames : g.PlainNames v) {m n : Node}
    (hm : m.Proper v.size g.size) (hn : n.Proper v.size g.size)
    (htext : m.text (g.names v) = n.text (g.names v)) (w : List TreeNode) :
    Derives g v [.node m] w ↔ Derives g v [.node n] w := by
  have hsame : some (Node.ofChoices m.choices) = some (Node.ofChoices n.choices) := by
    rw [← Node.read?_text hnames.legible hm, htext, Node.read?_text hnames.legible hn]
  rw [Node.derives_choices_iff hm, Option.some.inj hsame, Node.derives_choices_iff hn]

def phraseVocabulary : Vocabulary := .ofSpecs [{ name := "noun" }, { name := "verb" }]

/-- A noun, or nothing or a phrase, and then verbs. -/
def phraseBody : Node :=
  .sequence [.alternation [.terminal 0 1, .alternation [.sequence [], .ruleRef 0 1] 2 "tail"] 1 "",
    .repetition (.sequence [.optional (.terminal 1 1) 1]) 1 true]

/-- A noun or nothing, or a phrase, and then verbs. -/
def regroupedBody : Node :=
  .sequence [.alternation [.alternation [.terminal 0 2, .sequence []] 1 "", .ruleRef 0 1] 2 "",
    .repetition (.alternation [.optional (.terminal 1 1) 3] 3 "") 1 true]

def phrases : Grammar := ⟨[⟨"phrase", phraseBody⟩]⟩

theorem phrases_derives_iff_of_text_eq :
    phraseBody.text (phrases.names phraseVocabulary) = "(noun | () | phrase) \x7b[verb]\x7d+" ∧
    regroupedBody.text (phrases.names phraseVocabulary) =
      "(noun | () | phrase) \x7b[verb]\x7d+" ∧
    ∀ w, Derives phrases phraseVocabulary [.node phraseBody] w ↔
      Derives phrases phraseVocabulary [.node regroupedBody] w := by
  have hall : phraseVocabulary.names ++ phrases.ruleNames = ["noun", "verb", "phrase"] := by decide
  have hnames : phrases.PlainNames phraseVocabulary :=
    ⟨by simp [hall], by simp [hall, IsPlain, Reader.marks]⟩
  have hm : phraseBody.Proper 2 1 := Node.proper_of_fits _ (by
    simp [phraseBody, Node.preorder, Node.preorderAll, Node.Fits])
  have hn : regroupedBody.Proper 2 1 := Node.proper_of_fits _ (by
    simp [regroupedBody, Node.preorder, Node.preorderAll, Node.Fits])
  have htext : phraseBody.text (phrases.names phraseVocabulary) =
      "(noun | () | phrase) \x7b[verb]\x7d+" := by decide
  have htext' : regroupedBody.text (phrases.names phraseVocabulary) =
      "(noun | () | phrase) \x7b[verb]\x7d+" := by decide
  exact ⟨htext, htext', derives_iff_of_text_eq hnames hm hn (htext.trans htext'.symm)⟩

end Grammar

end StrongLL

import StrongLL.Proofs.InTurn
import StrongLL.Proofs.LexerEntries

/-!
# StrongLL.Proofs.LexerChecks

What a list of types has to be for a lexer to be built from it:

* `Lexer.Valid`       — the types, their patterns and their longer alternatives are in order.
* `Lexer.faults`      — everything that is not, first by declarations, then by patterns, then by
  longer alternatives, each time in the order of the list.
* `Lexer.fault?_build` — the first of the faults is the one that is reported.
* `Lexer.build_exact` — a lexer is built just if nothing is at fault, and then from the types with a
  pattern, where each longer alternative leads to the declared type.
-/

namespace StrongLL

namespace Lexer

/-! ## Faults -/

/-- What is wrong with the declaration of a type that stands behind the `earlier` ones. -/
def declarationFault? (v : Vocabulary) (earlier : List TypeId) (id : TypeId) : Option LexerFault :=
  match v.get? id with
  | none => some (.unknownType id)
  | some t =>
    match t.categories.find? (id ≤ ·) with
    | some category => some (.undeclaredCategory id category)
    | none => if t.name ∈ earlier.map v.name then some (.duplicateName t.name) else none

section

variable (ρ : Type) [Regex.Engine ρ]

open Regex (Engine)

/-- What is wrong with a pattern, be it that of this type. -/
def recognizerFault? (id : TypeId) : Pattern → Option LexerFault
  | .category => none
  | .literal text => if text = "" then some (.emptyMatch id) else none
  | .regex source =>
    match program? ρ source with
    | none => some (.invalidPattern id)
    | some program =>
      if (Engine.matchEnd? program []).isSome then some (.emptyMatch id) else none

/-- What is wrong with the pattern of a declared type. -/
def patternFault? (v : Vocabulary) (id : TypeId) : Option LexerFault :=
  (v.get? id).bind (recognizerFault? ρ id ·.pattern)

/-- What is wrong with the longer alternative of a type of the list. -/
def longerAltFault? (v : Vocabulary) (order : List TypeId) (id : TypeId) : Option LexerFault :=
  match v.longerAlt? id with
  | none => none
  | some alt =>
    if alt ∉ order then some (.unknownLongerAlt id alt)
    else if v.isMatchable alt then none
    else some (.unmatchableLongerAlt id alt)

def faults (v : Vocabulary) (order : List TypeId) : List LexerFault :=
  inTurn (declarationFault? v) order ++ (order.filterMap (patternFault? ρ v)
    ++ (order.filter v.isMatchable).filterMap (longerAltFault? v order))

/-- The types are declared behind their categories and under different names, every literal has some
text, every regular expression has a program that does not match the empty text, and the longer
alternative of a type with a pattern is a type of the list with a pattern. -/
structure Valid (v : Vocabulary) (order : List TypeId) : Prop where
  declared : ∀ id ∈ order, id < v.size
  categories : ∀ id ∈ order, ∀ t, v.get? id = some t → ∀ category ∈ t.categories, category < id
  names : (order.map v.name).Nodup
  literals : ∀ id ∈ order, ∀ t text, v.get? id = some t → t.pattern = .literal text → text ≠ ""
  regexes : ∀ id ∈ order, ∀ t source, v.get? id = some t → t.pattern = .regex source →
    ∃ program, program? ρ source = some program ∧ Engine.matchEnd? program [] = none
  longerAlts : ∀ id ∈ order, v.isMatchable id = true → ∀ alt, v.longerAlt? id = some alt →
    alt ∈ order ∧ v.isMatchable alt = true

end

/-! ## The first fault -/

def fault? {α : Type} : Except LexerFault α → Option LexerFault
  | .ok _ => none
  | .error f => some f

@[simp] theorem fault?_ok {α : Type} (a : α) : fault? (.ok a) = none := rfl

@[simp] theorem fault?_error {α : Type} (f : LexerFault) :
    fault? (.error f : Except LexerFault α) = some f := rfl

/-- To go on with what has been made makes no fault and hides none. -/
theorem fault?_map {α β : Type} (f : α → β) (x : Except LexerFault α) :
    fault? (x >>= fun a => pure (f a)) = fault? x := by
  cases x <;> rfl

variable {ρ : Type} [Regex.Engine ρ] {v : Vocabulary} {order : List TypeId}

theorem fault?_checkDeclared {earlier : List TypeId} {seen : List String}
    (hseen : ∀ name, name ∈ seen ↔ name ∈ earlier.map v.name) :
    fault? (checkDeclared v seen order) =
      (inTurn (fun before => declarationFault? v (earlier ++ before)) order).head? := by
  induction order generalizing earlier seen with
  | nil => rfl
  | cons id rest ih =>
    rw [head?_inTurn_cons, checkDeclared, declarationFault?, Vocabulary.undeclaredCategory?,
      List.append_nil]
    cases ht : v.get? id with
    | none => rfl
    | some t =>
      simp only [Option.bind_some]
      cases t.categories.find? (id ≤ ·) with
      | some category => rfl
      | none =>
        by_cases hname : t.name ∈ earlier.map v.name
        · simp only [hname, (hseen t.name).mpr hname, if_true]
          rfl
        · have hnew : t.name ∉ seen := fun h => hname ((hseen t.name).mp h)
          simp only [hname, hnew, if_false, Option.none_or]
          have hid : v.name id = t.name := by simp [Vocabulary.name, ht]
          have hseen' : ∀ name, name ∈ t.name :: seen ↔ name ∈ (earlier ++ [id]).map v.name := by
            intro name
            simp [hseen, hid, or_comm]
          rw [ih hseen']
          simp only [List.append_assoc, List.singleton_append]

theorem fault?_recognizer? (id : TypeId) (pattern : Pattern) :
    fault? (recognizer? ρ id pattern) = recognizerFault? ρ id pattern := by
  unfold recognizer? recognizerFault?
  cases pattern with
  | category => rfl
  | literal text => by_cases h : text = "" <;> simp [h]
  | regex source =>
    dsimp only
    cases program? ρ source with
    | none => rfl
    | some program =>
      dsimp only
      split <;> rfl

theorem fault?_compile (v : Vocabulary) (order : List TypeId) :
    fault? (compile ρ v order) = (order.filterMap (patternFault? ρ v)).head? := by
  induction order with
  | nil => rfl
  | cons id rest ih =>
    rw [compile]
    cases ht : v.get? id with
    | none => rw [ih, List.filterMap_cons_none (by simp [patternFault?, ht])]
    | some t =>
      have hpattern : fault? (recognizer? ρ id t.pattern) = patternFault? ρ v id := by
        rw [patternFault?, ht, fault?_recognizer?, Option.bind_some]
      dsimp only
      cases hr : recognizer? ρ id t.pattern with
      | error f =>
        rw [hr, fault?_error] at hpattern
        rw [List.filterMap_cons_some hpattern.symm]
        rfl
      | ok found =>
        rw [hr, fault?_ok] at hpattern
        rw [List.filterMap_cons_none hpattern.symm, ← ih]
        cases found with
        | none => rfl
        | some r => exact fault?_map _ _

theorem fault?_longerAlt? {kinds : List TypeId} (hkinds : kinds = order.filter v.isMatchable)
    (id : TypeId) : fault? (longerAlt? v order kinds id) = longerAltFault? v order id := by
  unfold longerAlt? longerAltFault? Vocabulary.longerAlt?
  cases (v.get? id).bind (·.longerAlt) with
  | none => rfl
  | some alt =>
    by_cases halt : alt ∈ order
    · cases hmatchable : v.isMatchable alt with
      | false =>
        have hnone : kinds.idxOf? alt = none := by simp [hkinds, hmatchable]
        simp [halt, hnone, hmatchable]
      | true =>
        have hmem : alt ∈ kinds := by simp [hkinds, halt, hmatchable]
        obtain ⟨i, hi⟩ := Option.isSome_iff_exists.mp (List.isSome_idxOf?.mpr hmem)
        simp [halt, hi, hmatchable]
    · simp [halt]

omit [Regex.Engine ρ] in
theorem fault?_resolve {kinds : List TypeId} (hkinds : kinds = order.filter v.isMatchable)
    (es : List (LexerEntry ρ)) :
    fault? (resolve v order kinds es) =
      ((es.map (·.kind)).filterMap (longerAltFault? v order)).head? := by
  induction es with
  | nil => rfl
  | cons e rest ih =>
    rw [resolve, List.map_cons]
    have hlonger := fault?_longerAlt? hkinds e.kind
    cases halt : longerAlt? v order kinds e.kind with
    | error f =>
      rw [halt, fault?_error] at hlonger
      rw [List.filterMap_cons_some hlonger.symm]
      rfl
    | ok alt =>
      rw [halt, fault?_ok] at hlonger
      rw [List.filterMap_cons_none hlonger.symm, ← ih]
      exact fault?_map _ _

/-- A lexer is not built because of the first fault there is. -/
theorem fault?_build (v : Vocabulary) (order : List TypeId) :
    fault? (build v order ρ) = (faults ρ v order).head? := by
  have hnone : ∀ name : String, name ∈ [] ↔ name ∈ ([] : List TypeId).map v.name := by simp
  have hdeclared : fault? (checkDeclared v [] order) = (inTurn (declarationFault? v) order).head? :=
    fault?_checkDeclared hnone
  unfold build faults
  rw [List.head?_append, List.head?_append, ← hdeclared, ← fault?_compile]
  cases checkDeclared v [] order with
  | error f => rfl
  | ok _ =>
    cases hes : compile ρ v order with
    | error f => rfl
    | ok es =>
      have hkinds := (compile_spec hes).1
      rw [← hkinds, ← fault?_resolve hkinds es]
      exact fault?_map _ _

/-! ## No faults -/

variable {id : TypeId}

theorem declarationFault?_eq_none_iff {earlier : List TypeId} :
    declarationFault? v earlier id = none ↔ id < v.size ∧
      (∀ t, v.get? id = some t → ∀ category ∈ t.categories, category < id) ∧
      v.name id ∉ earlier.map v.name := by
  unfold declarationFault?
  cases ht : v.get? id with
  | none =>
    have hsize : ¬ id < v.size := Nat.not_lt.mpr (List.getElem?_eq_none_iff.mp ht)
    simp [hsize]
  | some t =>
    have hsize : id < v.size := (List.getElem?_eq_some_iff.mp ht).1
    have hname : v.name id = t.name := by simp [Vocabulary.name, ht]
    dsimp only
    cases hfind : t.categories.find? (id ≤ ·) with
    | some category =>
      have hle : id ≤ category := by simpa using List.find?_some hfind
      have hnot : ¬ ∀ category ∈ t.categories, category < id := fun h =>
        Nat.not_lt.mpr hle (h category (List.mem_of_find?_eq_some hfind))
      simp [hnot]
    | none =>
      have hall : ∀ category ∈ t.categories, category < id := by simpa using hfind
      by_cases hmem : t.name ∈ earlier.map v.name
      · simp only [hname, hmem, if_true]
        simp
      · simp only [hname, hmem, hsize, if_false]
        simpa using hall

theorem declarationFaults_eq_nil_iff : inTurn (declarationFault? v) order = [] ↔
    (∀ id ∈ order, id < v.size ∧
      ∀ t, v.get? id = some t → ∀ category ∈ t.categories, category < id) ∧
    (order.map v.name).Nodup := by
  induction order using List.reverseRecOn with
  | nil => simp
  | append_singleton order id ih =>
    rw [inTurn_concat_eq_nil_iff, ih, declarationFault?_eq_none_iff, nodup_map_concat_iff,
      List.forall_mem_append, List.forall_mem_singleton]
    tauto

theorem recognizerFault?_eq_none_iff {pattern : Pattern} : recognizerFault? ρ id pattern = none ↔
    (∀ text, pattern = .literal text → text ≠ "") ∧ ∀ source, pattern = .regex source →
      ∃ program, program? ρ source = some program ∧
        Regex.Engine.matchEnd? program [] = none := by
  unfold recognizerFault?
  cases pattern with
  | category => simp
  | literal text => simp
  | regex source => cases h : program? ρ source <;> simp [h]

theorem longerAltFault?_eq_none_iff : longerAltFault? v order id = none ↔
    ∀ alt, v.longerAlt? id = some alt → alt ∈ order ∧ v.isMatchable alt = true := by
  unfold longerAltFault?
  cases v.longerAlt? id with
  | none => simp
  | some alt => by_cases halt : alt ∈ order <;> simp [halt]

theorem patternFaults_eq_nil_iff : order.filterMap (patternFault? ρ v) = [] ↔
    ∀ id ∈ order, ∀ t, v.get? id = some t → recognizerFault? ρ id t.pattern = none := by
  simp only [List.filterMap_eq_nil_iff, patternFault?, Option.bind_eq_none_iff]

theorem faults_eq_nil_iff : faults ρ v order = [] ↔ Valid ρ v order := by
  rw [faults, List.append_eq_nil_iff, List.append_eq_nil_iff, declarationFaults_eq_nil_iff,
    patternFaults_eq_nil_iff, List.filterMap_eq_nil_iff]
  simp only [recognizerFault?_eq_none_iff, List.mem_filter, longerAltFault?_eq_none_iff]
  constructor
  · rintro ⟨⟨hdeclared, hnames⟩, hpatterns, hlonger⟩
    refine ⟨fun id hid => (hdeclared id hid).1, fun id hid => (hdeclared id hid).2, hnames,
      fun id hid t text ht => (hpatterns id hid t ht).1 text,
      fun id hid t source ht => (hpatterns id hid t ht).2 source,
      fun id hid hmatchable => hlonger id ⟨hid, hmatchable⟩⟩
  · intro h
    exact ⟨⟨fun id hid => ⟨h.declared id hid, h.categories id hid⟩, h.names⟩,
      fun id hid t ht => ⟨fun text => h.literals id hid t text ht,
        fun source => h.regexes id hid t source ht⟩,
      fun id hid => h.longerAlts id hid.1 hid.2⟩

/-! ## What is built -/

variable {l : Lexer ρ}

theorem kinds_nodup (hvalid : Valid ρ v order) (h : l.IsOf v order) :
    (l.entries.map (·.kind)).Nodup := by
  rw [h.kinds]
  exact hvalid.names.of_map.filter _

/-- The position of a longer alternative is that of an entry of the declared type. -/
theorem longerAlt_of_build (h : build v order ρ = .ok l) {e : LexerEntry ρ} (he : e ∈ l.entries) :
    match v.longerAlt? e.kind with
    | none => e.longerAlt = none
    | some alt => ∃ i e', e.longerAlt = some i ∧ l.entries[i]? = some e' ∧ e'.kind = alt := by
  obtain ⟨-, es, -, hresolve⟩ := exists_of_build h
  obtain ⟨hkinds, hresolved⟩ := resolve_spec hresolve
  obtain ⟨e₀, -, hr⟩ := hresolved e he
  have hkind : e.kind = e₀.kind := by rw [hr.rest]
  rw [hkind]
  obtain ⟨hnone, hfound⟩ | ⟨alt, i, halt, hfound, hi⟩ := longerAlt?_eq_ok hr.longerAlt
  · rw [hnone]
    exact hfound
  · rw [← hkinds, List.getElem?_map] at hi
    obtain ⟨e', he', hkind'⟩ := Option.map_eq_some_iff.mp hi
    rw [halt]
    exact ⟨i, e', hfound, he', hkind'⟩

/-- A lexer is built just if the list is valid. Its entries are those of the listed types with a
pattern, in the order of the list and each once, and a declared longer alternative, and nothing
else, leads to the entry of the declared type. Otherwise the first fault is reported, where those of
declarations come before those of patterns and those of longer alternatives last. -/
theorem build_exact (ρ : Type) [Regex.Engine ρ] (v : Vocabulary) (order : List TypeId) :
    match build v order ρ with
    | .ok l => Valid ρ v order ∧ l.vocabulary = v ∧ l.IsOf v order ∧
        (l.entries.map (·.kind)).Nodup ∧ ∀ e ∈ l.entries,
          match v.longerAlt? e.kind with
          | none => e.longerAlt = none
          | some alt => ∃ i e', e.longerAlt = some i ∧ l.entries[i]? = some e' ∧ e'.kind = alt
    | .error f => ¬ Valid ρ v order ∧ (faults ρ v order).head? = some f := by
  have hfault : fault? (build v order ρ) = (faults ρ v order).head? := fault?_build v order
  cases h : build v order ρ with
  | ok l =>
    rw [h, fault?_ok, eq_comm, List.head?_eq_none_iff, faults_eq_nil_iff] at hfault
    have hl := isOf_of_build h
    exact ⟨hfault, (exists_of_build h).1, hl, kinds_nodup hfault hl,
      fun e he => longerAlt_of_build h he⟩
  | error f =>
    rw [h, fault?_error] at hfault
    refine ⟨fun hvalid => ?_, hfault.symm⟩
    rw [faults_eq_nil_iff.mpr hvalid] at hfault
    cases hfault

/-- A category has no entry, so the third type of the list has the second one. -/
example :
    let v := Vocabulary.ofSpecs [{ name := "word" },
      { name := "let", pattern := .literal "let", longerAlt := some 2, categories := [0] },
      { name := "letter", pattern := .literal "letter", categories := [0] }]
    (build v [0, 1, 2]).toOption.map (·.entries.map (·.longerAlt)) = some [some 1, none] := by
  decide

end Lexer

end StrongLL

import Mathlib
import NoMercyRecomp.Conditions

/-!
# Shared references

A computed reference is not made twice: the pool is searched for one of the same kind whose
operands compare equal, and the first that is found is used. The comparison looks at what
operands lead to, not at the places. In the pools that parsing builds it is as good as
the places, for operands that neither recall a value nor lead to a float constant.
-/

namespace NoMercyRecomp.SharedReferences

open TypedValues MemRefs FrameReadings Conditions

/-! ## Floats and sizes -/

/-- `rc_operand_is_float`. -/
def rcOperandIsFloat (memrefs : Memrefs) (operand : Operand) : Bool :=
  if operand.recalled then rcMemsizeIsFloat (Conditions.sizeOf operand)
  else
    match operand.source with
    | .fp _ => true
    | .memref _ (.modified index) size =>
      match memrefs.modifiedMemrefs[index]? with
      | some found =>
        if found.modifierType ≠ .indirectRead then rcMemsizeIsFloat found.memref.value.size
          else rcMemsizeIsFloat size
      | none => rcMemsizeIsFloat size
    | .memref _ (.memref _) size => rcMemsizeIsFloat size
    | _ => false

/-- The size of a computed reference that is read by others: an integer, unless a float has
to come out. In a sum that is decided by what it is added to. -/
def computedSize (memrefs : Memrefs) (parent : Operand) (modifierType : Operator)
    (modifier : Operand) : MemSize :=
  let float :=
    match modifierType with
    | .addAccumulator | .subAccumulator | .subParent => rcOperandIsFloat memrefs parent
    | _ => rcOperandIsFloat memrefs parent || rcOperandIsFloat memrefs modifier
  if float then .float else .bits32

/-- Operands that read the same. -/
structure Alike (first second : Operand) : Prop where
  source : first.source = second.source
  recalled : first.recalled = second.recalled

/-- A source that leads into the pools. -/
def Source.Inside (memrefs : Memrefs) : Source → Prop
  | .memref _ (.memref index) _ => index < memrefs.memrefs.length
  | .memref _ (.modified index) _ => index < memrefs.modifiedMemrefs.length
  | _ => True

/-- The size of a reference, as an operand expects it of what is computed so. No operand takes
an integer for a float. -/
def Sized (memrefs : Memrefs) (access : Access) (operandSize size : MemSize) (parent : Operand)
    (modifierType : Operator) (modifier : Operand) : Prop :=
  if modifierType = .indirectRead then size = referenceSize access operandSize
  else
    size = computedSize memrefs parent modifierType modifier ∧
      (rcMemsizeIsFloat operandSize = true → rcMemsizeIsFloat size = true)

/-- A computed reference of the size that an operand expects. -/
def SizedFor (memrefs : Memrefs) (access : Access) (size : MemSize) (entry : ModifiedMemref) :
    Prop :=
  Sized memrefs access size entry.memref.value.size entry.parent entry.modifierType entry.modifier

/-- An operand that leads, through whatever it is computed from, to memory and integer
constants only. -/
inductive Plain (memrefs : Memrefs) : Operand → Prop
  | const (num : UInt32) (isCombining : Bool) : Plain memrefs ⟨.const num, false, isCombining⟩
  | memref (access : Access) (index : Nat) (size : MemSize) (isCombining : Bool)
      (inside : index < memrefs.memrefs.length) :
      Plain memrefs ⟨.memref access (.memref index) size, false, isCombining⟩
  | modified (access : Access) (index : Nat) (size : MemSize) (isCombining : Bool)
      (entry : ModifiedMemref)
      (found : memrefs.modifiedMemrefs[index]? = some entry) (parent : Plain memrefs entry.parent)
      (modifier : Plain memrefs entry.modifier) (sized : SizedFor memrefs access size entry) :
      Plain memrefs ⟨.memref access (.modified index) size, false, isCombining⟩

/-- An operand that leads so to memory and integer constants, of whatever sizes. -/
inductive Leads (memrefs : Memrefs) : Operand → Prop
  | const (num : UInt32) (isCombining : Bool) : Leads memrefs ⟨.const num, false, isCombining⟩
  | memref (access : Access) (index : Nat) (size : MemSize) (isCombining : Bool)
      (inside : index < memrefs.memrefs.length) :
      Leads memrefs ⟨.memref access (.memref index) size, false, isCombining⟩
  | modified (access : Access) (index : Nat) (size : MemSize) (isCombining : Bool)
      (entry : ModifiedMemref) (found : memrefs.modifiedMemrefs[index]? = some entry)
      (parent : Leads memrefs entry.parent) (modifier : Leads memrefs entry.modifier) :
      Leads memrefs ⟨.memref access (.modified index) size, false, isCombining⟩

/-- An operand of a reference at a place that leads to earlier ones, unless it recalls. -/
def Behind (place : Nat) (operand : Operand) : Prop :=
  operand.recalled = false → operand.source.Before place

/-- Pools in which a computed reference comes behind what it reads, unless it recalls that. -/
def Forward (memrefs : Memrefs) : Prop :=
  ∀ (place : Nat) (entry : ModifiedMemref), memrefs.modifiedMemrefs[place]? = some entry →
    Behind place entry.parent ∧ Behind place entry.modifier

/-- An operand as parsing makes it. Nothing is said of one that is recalled, nor of one that
is computed from others than plain ones. -/
structure Fits (memrefs : Memrefs) (operand : Operand) : Prop where
  inside : Source.Inside memrefs operand.source
  sized : operand.recalled = false →
    ∀ (access : Access) (index : Nat) (size : MemSize) (entry : ModifiedMemref),
    operand.source = .memref access (.modified index) size →
      memrefs.modifiedMemrefs[index]? = some entry →
      Plain memrefs entry.parent → Plain memrefs entry.modifier → SizedFor memrefs access size entry

/-- A computed reference as parsing makes it: it reads only references before it, and none of
them is computed in the same way. -/
structure Sound (memrefs : Memrefs) (index : Nat) (entry : ModifiedMemref) : Prop where
  parentBefore : entry.parent.source.Before index
  modifierBefore : entry.modifier.source.Before index
  parentFits : Fits memrefs entry.parent
  modifierFits : Fits memrefs entry.modifier
  kind : entry.memref.value.type = if rcMemsizeIsFloat entry.memref.value.size then .float
    else .unsigned
  distinct : ∀ earlier < index, ∀ other, memrefs.modifiedMemrefs[earlier]? = some other →
    Plain memrefs entry.parent →
    Plain memrefs entry.modifier → other.memref.value.size = entry.memref.value.size →
      other.modifierType = entry.modifierType →
      Alike other.parent entry.parent → ¬ Alike other.modifier entry.modifier

/-- The pools that parsing builds. -/
structure Built (memrefs : Memrefs) : Prop where
  typed : ∀ memref ∈ memrefs.memrefs, memref.value.type = .unsigned
  unique : ∀ (i j : Nat) (first second : Memref), memrefs.memrefs[i]? = some first →
    memrefs.memrefs[j]? = some second →
    first.address = second.address → first.value.size = second.value.size → i = j
  computed : ∀ (index : Nat) (entry : ModifiedMemref),
    memrefs.modifiedMemrefs[index]? = some entry → Sound memrefs index entry

/-- A plain reference has a type. -/
theorem Built.live {memrefs : Memrefs} (built : Built memrefs) : memrefs.Live := by
  intro memref member
  rw [built.typed memref member]
  exact ValueType.noConfusion

/-- A computed reference comes behind what it reads. -/
theorem Built.ordered {memrefs : Memrefs} (built : Built memrefs) : memrefs.Ordered :=
  fun index entry found => ⟨(built.computed index entry found).parentBefore,
    (built.computed index entry found).modifierBefore⟩

/-- An operand that reads plainly leads into the pools. -/
theorem Plain.leads {memrefs : Memrefs} {operand : Operand} (plain : Plain memrefs operand) :
    Leads memrefs operand := by
  induction plain with
  | const num isCombining => exact .const num isCombining
  | memref access index size isCombining inside =>
    exact .memref access index size isCombining inside
  | modified access index size isCombining entry found _ _ _ parentHypothesis modifierHypothesis =>
    exact .modified access index size isCombining entry found parentHypothesis modifierHypothesis

/-- Where all comes behind what it reads, so does what is not recalled. -/
theorem ordered_forward {memrefs : Memrefs} (ordered : memrefs.Ordered) : Forward memrefs :=
  fun place entry found =>
    ⟨fun _ => (ordered place entry found).1, fun _ => (ordered place entry found).2⟩

/-! ## Operands that are alike -/

/-- Operands read alike whichever is named first. -/
theorem Alike.symm {first second : Operand} (alike : Alike first second) : Alike second first :=
  ⟨alike.source.symm, alike.recalled.symm⟩

/-- Operands that read alike have one size. -/
theorem sizeOf_alike {first second : Operand} (alike : Alike first second) :
    Conditions.sizeOf first = Conditions.sizeOf second := by
  rw [Conditions.sizeOf, Conditions.sizeOf, alike.source]

/-- Operands that read alike are both floats or both not. -/
theorem rcOperandIsFloat_alike (memrefs : Memrefs) {first second : Operand}
    (alike : Alike first second) :
    rcOperandIsFloat memrefs first = rcOperandIsFloat memrefs second := by
  rw [rcOperandIsFloat, rcOperandIsFloat, alike.source, alike.recalled, sizeOf_alike alike]

/-- References of operands that read alike are computed with one size. -/
theorem computedSize_alike (memrefs : Memrefs) {parent parent' modifier modifier' : Operand}
    (modifierType : Operator)
    (parents : Alike parent parent') (modifiers : Alike modifier modifier') :
    computedSize memrefs parent modifierType modifier =
      computedSize memrefs parent' modifierType modifier' := by
  simp only [computedSize, rcOperandIsFloat_alike memrefs parents,
    rcOperandIsFloat_alike memrefs modifiers]

/-- What reads like a plain operand is plain. -/
theorem Plain.alike {memrefs : Memrefs} {first second : Operand} (plain : Plain memrefs second)
    (alike : Alike first second) :
    Plain memrefs first := by
  obtain ⟨source, recalled, isCombining⟩ := first
  obtain ⟨rfl, rfl⟩ := alike
  cases plain with
  | const num _ => exact .const num isCombining
  | memref access index size _ inside => exact .memref access index size isCombining inside
  | modified access index size _ entry found parent modifier sized =>
    exact .modified access index size isCombining entry found parent modifier sized

/-- A plain operand does not recall. -/
theorem Plain.recalled {memrefs : Memrefs} {operand : Operand} (plain : Plain memrefs operand) :
    operand.recalled = false := by
  cases plain <;> rfl

/-- A plain operand is read within the pools. -/
theorem Plain.inside {memrefs : Memrefs} {operand : Operand} (plain : Plain memrefs operand) :
    Source.Inside memrefs operand.source := by
  cases plain with
  | const => trivial
  | memref access index size _ inside => exact inside
  | modified access index size _ entry found => exact (List.getElem?_eq_some_iff.mp found).1

/-- A plain operand is one that parsing makes. -/
theorem Plain.fits {memrefs : Memrefs} {operand : Operand} (plain : Plain memrefs operand) :
    Fits memrefs operand := by
  refine ⟨plain.inside, fun _ access index size entry source found _ _ => ?_⟩
  cases plain with
  | const => cases source
  | memref => cases source
  | modified access' index' size' _ entry' found' _ _ sized =>
    cases source
    rw [found'] at found
    obtain rfl := Option.some.inj found
    exact sized

/-! ## Equal operands -/

/-- An operand that leads into the pools does not recall. -/
theorem Leads.recalled {memrefs : Memrefs} {operand : Operand} (leads : Leads memrefs operand) :
    operand.recalled = false := by
  cases leads <;> rfl

/-- What reads like an operand that leads into the pools does so too. -/
theorem Leads.alike {memrefs : Memrefs} {first second : Operand} (leads : Leads memrefs second)
    (alike : Alike first second) : Leads memrefs first := by
  obtain ⟨source, recalled, isCombining⟩ := first
  obtain ⟨rfl, rfl⟩ := alike
  cases leads with
  | const num => exact .const num isCombining
  | memref access index size _ inside => exact .memref access index size isCombining inside
  | modified access index size _ entry found parent modifier =>
    exact .modified access index size isCombining entry found parent modifier

/-- A source before an earlier place. -/
theorem before_mono {place later : Nat} (within : place ≤ later) (source : Source)
    (before : source.Before place) : source.Before later := by
  match source, before with
  | .memref _ (.modified _) _, before => exact Nat.lt_of_lt_of_le before within
  | .memref _ (.memref _) _, _ | .const _, _ | .fp _, _ | .func, _ | .nothing, _ => trivial

/-- Operands that are alike compare equal, when the depth of the comparison suffices. The
induction is on that depth: what a computed reference reads comes before it, since an operand
that leads to memory recalls nothing. -/
theorem rcOperandsAreEqual_alike (memrefs : Memrefs) (forward : Forward memrefs) (depth : Nat)
    (left right : Operand) (leads : Leads memrefs right) (alike : Alike left right)
    (deep : right.source.Before depth) : rcOperandsAreEqual memrefs depth left right = true := by
  induction depth generalizing left right with
  | zero =>
    obtain ⟨source, recalled, isCombining⟩ := left
    obtain ⟨rfl, rfl⟩ := alike
    cases leads with
    | const num => simp [rcOperandsAreEqual]
    | memref access index size _ inside =>
      simp [rcOperandsAreEqual, List.getElem?_eq_getElem inside]
    | modified access index size _ entry found => exact absurd deep (Nat.not_lt_zero index)
  | succ depth inductionHypothesis =>
    obtain ⟨source, recalled, isCombining⟩ := left
    obtain ⟨rfl, rfl⟩ := alike
    cases leads with
    | const num => simp [rcOperandsAreEqual]
    | memref access index size _ inside =>
      simp [rcOperandsAreEqual, List.getElem?_eq_getElem inside]
    | modified access index size _ entry found parent modifier =>
      obtain ⟨parentBehind, modifierBehind⟩ := forward index entry found
      have shallow : index ≤ depth := Nat.le_of_lt_succ deep
      have parents := inductionHypothesis entry.parent entry.parent parent ⟨rfl, rfl⟩
        (before_mono shallow _ (parentBehind parent.recalled))
      have modifiers := inductionHypothesis entry.modifier entry.modifier modifier ⟨rfl, rfl⟩
        (before_mono shallow _ (modifierBehind modifier.recalled))
      simp [rcOperandsAreEqual, found, parents, modifiers]

/-- Operands that compare equal are alike: the pool has no two references for them to lead
to. -/
theorem rcOperandsAreEqual_plain (memrefs : Memrefs) (built : Built memrefs) (depth : Nat)
    (left right : Operand) (fits : Fits memrefs left) (plain : Plain memrefs right)
    (equal : rcOperandsAreEqual memrefs depth left right = true) :
    Alike left right := by
  induction plain generalizing depth left with
  | const num isCombining =>
    obtain ⟨source, recalled, _⟩ := left
    rw [rcOperandsAreEqual] at equal
    split at equal
    next => cases equal
    next same =>
      have both : recalled = false := not_not.mp same
      cases source with
      | const other =>
        have nums : other = num := by simpa using equal
        exact ⟨by rw [nums], both⟩
      | _ => cases equal
  | memref access index size isCombining inside =>
    obtain ⟨source, recalled, _⟩ := left
    rw [rcOperandsAreEqual] at equal
    split at equal
    next => cases equal
    next same =>
      have both : recalled = false := not_not.mp same
      subst both
      cases source with
      | memref access' ref size' =>
        simp only [Bool.false_eq_true, if_false] at equal
        split at equal
        next => cases equal
        next kinds =>
          obtain ⟨accesses, sizes⟩ : access' = access ∧ size' = size := by
            simpa [not_or] using kinds
          cases ref with
          | modified place => cases equal
          | memref place =>
            have here : place < memrefs.memrefs.length := fits.inside
            simp only [List.getElem?_eq_getElem here, List.getElem?_eq_getElem inside,
              decide_eq_true_eq] at equal
            have places := built.unique place index _ _ (List.getElem?_eq_getElem here)
              (List.getElem?_eq_getElem inside)
              equal.1 equal.2
            exact ⟨by rw [accesses, sizes, places], rfl⟩
      | _ => cases equal
  | modified access index size isCombining entry found parent modifier sized parentHypothesis
      modifierHypothesis =>
    obtain ⟨source, recalled, _⟩ := left
    rw [rcOperandsAreEqual] at equal
    split at equal
    next => cases equal
    next same =>
      have both : recalled = false := not_not.mp same
      subst both
      cases source with
      | memref access' ref size' =>
        simp only [Bool.false_eq_true, if_false] at equal
        split at equal
        next => cases equal
        next kinds =>
          obtain ⟨accesses, sizes⟩ : access' = access ∧ size' = size := by
            simpa [not_or] using kinds
          cases ref with
          | memref place => cases equal
          | modified place =>
            have here : place < memrefs.modifiedMemrefs.length := fits.inside
            have found' := List.getElem?_eq_getElem here
            generalize memrefs.modifiedMemrefs[place] = other at found'
            cases depth with
            | zero => cases equal
            | succ depth =>
              simp only [found, found', decide_eq_true_eq] at equal
              obtain ⟨types, _, modifiersEqual, parentsEqual⟩ := equal
              have sound := built.computed index entry found
              have otherSound := built.computed place other found'
              have parents := parentHypothesis depth other.parent otherSound.parentFits parentsEqual
              have modifiers :=
                modifierHypothesis depth other.modifier otherSound.modifierFits modifiersEqual
              have otherSized : SizedFor memrefs access' size' other :=
                fits.sized rfl access' place size' other rfl found' (parent.alike parents)
                  (modifier.alike modifiers)
              have oneSize : other.memref.value.size = entry.memref.value.size := by
                rw [SizedFor, Sized, types, accesses, sizes] at otherSized
                rw [SizedFor, Sized] at sized
                split at sized
                next =>
                  rw [if_pos ‹_›] at otherSized
                  exact otherSized.trans sized.symm
                next =>
                  rw [if_neg ‹_›, computedSize_alike memrefs _ parents modifiers] at otherSized
                  exact otherSized.1.trans sized.1.symm
              have places : place = index := by
                obtain earlier | same | later := Nat.lt_trichotomy place index
                · exact absurd modifiers (sound.distinct place earlier other found' parent modifier
                    oneSize types parents)
                · exact same
                · exact absurd modifiers.symm
                    (otherSound.distinct index later entry found (parent.alike parents)
                    (modifier.alike modifiers) oneSize.symm types.symm parents.symm)
              exact ⟨by rw [accesses, sizes, places], rfl⟩
      | _ => cases equal

/-- An operand compares equal to a plain one as that one does to it. By induction on how the plain
operand is computed, whose own operands are compared in the same way. -/
theorem rcOperandsAreEqual_symm (memrefs : Memrefs) (depth : Nat) (left right : Operand)
    (plain : Plain memrefs left) (equal : rcOperandsAreEqual memrefs depth left right = true) :
    rcOperandsAreEqual memrefs depth right left = true := by
  induction plain generalizing depth right with
  | const num isCombining =>
    obtain ⟨source, recalled, _⟩ := right
    rw [rcOperandsAreEqual] at equal ⊢
    split at equal
    next => cases equal
    next same =>
      have both : false = recalled := not_not.mp same
      subst both
      cases source with
      | const other =>
        have nums : num = other := by simpa using equal
        simp [nums]
      | _ => cases equal
  | memref access index size isCombining inside =>
    obtain ⟨source, recalled, _⟩ := right
    rw [rcOperandsAreEqual] at equal ⊢
    split at equal
    next => cases equal
    next same =>
      have both : false = recalled := not_not.mp same
      subst both
      cases source with
      | memref access' ref' size' =>
        cases ref' with
        | modified place => simp at equal
        | memref place =>
          simp only [List.getElem?_eq_getElem inside] at equal ⊢
          cases found : memrefs.memrefs[place]? with
          | none => simp [found] at equal
          | some memref =>
            simp only [found] at equal ⊢
            grind
      | _ => cases equal
  | modified access index size isCombining entry found parent modifier sized parentHypothesis
      modifierHypothesis =>
    obtain ⟨source, recalled, _⟩ := right
    rw [rcOperandsAreEqual] at equal ⊢
    split at equal
    next => cases equal
    next same =>
      have both : false = recalled := not_not.mp same
      subst both
      cases source with
      | memref access' ref' size' =>
        cases ref' with
        | memref place => simp at equal
        | modified place =>
          cases depth with
          | zero => simp at equal
          | succ depth =>
            cases found' : memrefs.modifiedMemrefs[place]? with
            | none => simp [found, found'] at equal
            | some other =>
              have parents := parentHypothesis depth other.parent
              have modifiers := modifierHypothesis depth other.modifier
              simp only [found, found'] at equal ⊢
              grind
      | _ => cases equal

/-! ## Pools as they grow -/

/-- Pools that have the references of others at their places, whatever these hold. -/
structure Extends (before after : Memrefs) : Prop where
  memrefs : ∀ (index : Nat) (memref : Memref), before.memrefs[index]? = some memref →
    ∃ value : MemrefValue, after.memrefs[index]? = some { memref with value := value } ∧
      value.size = memref.value.size ∧ value.type = memref.value.type
  modified : ∀ (index : Nat) (entry : ModifiedMemref), before.modifiedMemrefs[index]? = some entry →
    ∃ value : MemrefValue, after.modifiedMemrefs[index]? = some (entry.withValue value) ∧
      value.size = entry.memref.value.size ∧ value.type = entry.memref.value.type

/-- Pools extend themselves. -/
theorem Extends.refl (memrefs : Memrefs) : Extends memrefs memrefs :=
  ⟨fun _ memref found => ⟨memref.value, found, rfl, rfl⟩, fun _ entry found =>
    ⟨entry.memref.value, found, rfl, rfl⟩⟩

/-- Pools that extend an extension extend the first. -/
theorem Extends.trans {first second third : Memrefs} (one : Extends first second)
    (two : Extends second third) :
    Extends first third := by
  constructor
  · intro index memref found
    obtain ⟨value, found', size, type⟩ := one.memrefs index memref found
    obtain ⟨value', found'', size', type'⟩ := two.memrefs index _ found'
    exact ⟨value', found'', size'.trans size, type'.trans type⟩
  · intro index entry found
    obtain ⟨value, found', size, type⟩ := one.modified index entry found
    obtain ⟨value', found'', size', type'⟩ := two.modified index _ found'
    exact ⟨value', found'', size'.trans size, type'.trans type⟩

/-- References that are added behind the others. -/
theorem extends_append (memrefs : Memrefs) (added : List Memref) (computed : List ModifiedMemref) :
    Extends memrefs ⟨memrefs.memrefs ++ added, memrefs.modifiedMemrefs ++ computed⟩ := by
  constructor
  · intro index memref found
    refine ⟨memref.value, ?_, rfl, rfl⟩
    rw [List.getElem?_append_left (List.getElem?_eq_some_iff.mp found).1, found]
  · intro index entry found
    refine ⟨entry.memref.value, ?_, rfl, rfl⟩
    rw [List.getElem?_append_left (List.getElem?_eq_some_iff.mp found).1, found]
    rfl

/-- Changes keep the references at their places: allocation appends, and a frame changes values
alone, of which size and type are kept. -/
theorem change_extends (memrefs : Memrefs) (ordered : memrefs.Ordered) (change : Change) :
    Extends memrefs (memrefs.change change) := by
  cases change with
  | memref address size =>
    rw [Memrefs.change, rcAllocMemref]
    split
    next => exact .refl memrefs
    next =>
      have grown := extends_append memrefs [⟨⟨0, 0, size, false, .unsigned⟩, address⟩] []
      rwa [List.append_nil] at grown
  | modified size parent modifierType modifier =>
    obtain same | ⟨added, _, _, grows⟩ :=
      rcAllocModifiedMemref_added memrefs size parent modifierType modifier
    · rw [Memrefs.change, same]
      exact .refl memrefs
    · have grown := extends_append memrefs [] [added]
      rw [List.append_nil] at grown
      rwa [Memrefs.change, grows]
  | frame peek =>
    constructor
    · intro index memref found
      rw [Memrefs.change, rcUpdateMemrefValues_memrefs, List.getElem?_map, found, Option.map_some,
        updateMemref]
      split
      next => exact ⟨_, rfl, (rcUpdateMemrefValue_kind _ _).1, (rcUpdateMemrefValue_kind _ _).2⟩
      next => exact ⟨memref.value, rfl, rfl, rfl⟩
    · intro index entry found
      rw [Memrefs.change, rcUpdateMemrefValues_modified memrefs ordered, found, Option.map_some,
        ModifiedMemref.updatedIn]
      exact ⟨_, rfl, (rcUpdateMemrefValue_kind _ _).1, (rcUpdateMemrefValue_kind _ _).2⟩

section Growth

variable {before after : Memrefs} (extends' : Extends before after)

include extends'

/-- A computed reference at an old place is the old one. -/
theorem Extends.old (index : Nat) (inside : index < before.modifiedMemrefs.length)
    (entry : ModifiedMemref) (found : after.modifiedMemrefs[index]? = some entry) :
    ∃ old value, before.modifiedMemrefs[index]? = some old ∧ entry = old.withValue value ∧
      value.size = old.memref.value.size ∧ value.type = old.memref.value.type := by
  have found' := List.getElem?_eq_getElem inside
  obtain ⟨value, later, size, type⟩ := extends'.modified index _ found'
  rw [later] at found
  exact ⟨_, value, found', (Option.some.inj found).symm, size, type⟩

/-- What is read within the pools is read within larger ones. -/
theorem Extends.inside (source : Source) (inside : Source.Inside before source) :
    Source.Inside after source := by
  match source, inside with
  | .memref _ (.memref index) _, inside =>
    obtain ⟨value, found, _⟩ := extends'.memrefs index _ (List.getElem?_eq_getElem inside)
    exact (List.getElem?_eq_some_iff.mp found).1
  | .memref _ (.modified index) _, inside =>
    obtain ⟨value, found, _⟩ := extends'.modified index _ (List.getElem?_eq_getElem inside)
    exact (List.getElem?_eq_some_iff.mp found).1
  | .const _, _ | .fp _, _ | .func, _ | .nothing, _ => trivial

/-- Whether an operand is a float does not change. -/
theorem Extends.float (operand : Operand) (inside : Source.Inside before operand.source) :
    rcOperandIsFloat after operand = rcOperandIsFloat before operand := by
  obtain ⟨source, recalled, isCombining⟩ := operand
  match source, inside with
  | .memref access (.modified index) size, inside =>
    have found := List.getElem?_eq_getElem inside
    obtain ⟨value, found', same, _⟩ := extends'.modified index _ found
    simp only [rcOperandIsFloat, found, found', ModifiedMemref.withValue, same]
  | .memref _ (.memref _) _, _ | .const _, _ | .fp _, _ | .func, _ | .nothing, _ => rfl

/-- The size of a computed reference is the same in larger pools. -/
theorem Extends.computedSize (parent modifier : Operand) (modifierType : Operator)
    (parentInside : Source.Inside before parent.source)
    (modifierInside : Source.Inside before modifier.source) :
    computedSize after parent modifierType modifier =
      computedSize before parent modifierType modifier := by
  simp only [SharedReferences.computedSize, extends'.float parent parentInside,
    extends'.float modifier modifierInside]

/-- Nor does the size that is expected of a reference. -/
theorem Extends.sizedFor (access : Access) (size : MemSize) (entry : ModifiedMemref)
    (value : MemrefValue) (same : value.size = entry.memref.value.size)
    (parentInside : Source.Inside before entry.parent.source)
    (modifierInside : Source.Inside before entry.modifier.source) :
    SizedFor after access size (entry.withValue value) ↔ SizedFor before access size entry := by
  simp only [SizedFor, Sized, ModifiedMemref.withValue, same,
    extends'.computedSize entry.parent entry.modifier entry.modifierType parentInside
      modifierInside]

/-- A plain operand stays plain. -/
theorem Plain.extends {operand : Operand} (plain : Plain before operand) : Plain after operand := by
  induction plain with
  | const num isCombining => exact .const num isCombining
  | memref access index size isCombining inside =>
    exact .memref access index size isCombining
      (extends'.inside (.memref access (.memref index) size) inside)
  | modified access index size isCombining entry found parent modifier sized parentHypothesis
      modifierHypothesis =>
    obtain ⟨value, found', same, _⟩ := extends'.modified index entry found
    exact .modified access index size isCombining
      (entry.withValue value) found' parentHypothesis modifierHypothesis
      ((extends'.sizedFor access size entry value same parent.inside modifier.inside).mpr sized)

/-- A plain operand that leads to old references was plain. By induction on how it is computed, as
old references are computed from old ones. -/
theorem Plain.shrink (built : Built before) {operand : Operand} (plain : Plain after operand)
    (inside : Source.Inside before operand.source) : Plain before operand := by
  induction plain with
  | const num isCombining => exact .const num isCombining
  | memref access index size isCombining => exact .memref access index size isCombining inside
  | modified access index size isCombining entry found parent modifier sized parentHypothesis
      modifierHypothesis =>
    obtain ⟨old, value, found', rfl, same, _⟩ := extends'.old index inside entry found
    have sound := built.computed index old found'
    exact .modified access index size isCombining old found'
      (parentHypothesis sound.parentFits.inside)
      (modifierHypothesis sound.modifierFits.inside)
      ((extends'.sizedFor access size old value same
        sound.parentFits.inside sound.modifierFits.inside).mp sized)

/-- An operand stays as parsing makes it: references keep their places, and the sizes that its own
has to fit. -/
theorem Fits.extends (built : Built before) {operand : Operand} (fits : Fits before operand) :
    Fits after operand := by
  refine ⟨extends'.inside _ fits.inside,
    fun plain access index size entry source found parent modifier => ?_⟩
  have inside : index < before.modifiedMemrefs.length := by
    have inside := fits.inside
    rwa [source] at inside
  obtain ⟨old, value, found', rfl, same, _⟩ := extends'.old index inside entry found
  have sound := built.computed index old found'
  exact (extends'.sizedFor access size old value same
    sound.parentFits.inside sound.modifierFits.inside).mpr
    (fits.sized plain access index size old source found'
      (Plain.shrink extends' built parent sound.parentFits.inside)
      (Plain.shrink extends' built modifier sound.modifierFits.inside))

/-- So does a computed reference: it is computed from references before it, which are the same,
and differs from those as before. -/
theorem Sound.extends (built : Built before) (index : Nat) (entry : ModifiedMemref)
    (found : before.modifiedMemrefs[index]? = some entry) (value : MemrefValue)
    (same : value.size = entry.memref.value.size)
    (type : value.type = entry.memref.value.type) : Sound after index (entry.withValue value) := by
  have sound := built.computed index entry found
  refine ⟨sound.parentBefore, sound.modifierBefore, sound.parentFits.extends extends' built,
    sound.modifierFits.extends extends' built, ?_, ?_⟩
  · show value.type = if rcMemsizeIsFloat value.size then .float else .unsigned
    rw [same, type, sound.kind]
  · intro earlier less other there parent modifier size modifierType parents
    have inside : index < before.modifiedMemrefs.length := (List.getElem?_eq_some_iff.mp found).1
    obtain ⟨old, value', there', rfl, same', _⟩ :=
      extends'.old earlier (less.trans inside) other there
    have size' : old.memref.value.size = entry.memref.value.size :=
      same'.symm.trans (size.trans same)
    exact sound.distinct earlier less old there'
      (Plain.shrink extends' built parent sound.parentFits.inside)
      (Plain.shrink extends' built modifier sound.modifierFits.inside) size' modifierType parents

end Growth

/-- An allocation is of operands that parsing makes. -/
def Made (memrefs : Memrefs) : Change → Prop
  | .modified _ parent _ modifier => Fits memrefs parent ∧ Fits memrefs modifier
  | _ => True

/-- What is read within the pools stands before a reference that is added. -/
theorem inside_before (memrefs : Memrefs) (source : Source)
    (inside : Source.Inside memrefs source) :
    source.Before memrefs.modifiedMemrefs.length := by
  match source, inside with
  | .memref _ (.modified index) _, inside => exact inside
  | .memref _ (.memref _) _, _ | .const _, _ | .fp _, _ | .func, _ | .nothing, _ => trivial

/-- Empty pools are built. -/
theorem built_empty : Built ⟨[], []⟩ where
  typed _ member := absurd member List.not_mem_nil
  unique _ _ _ _ found := by cases found
  computed _ _ found := by cases found

/-- A plain reference that is added is of its own address or size, since the search for both has
found none; what is computed from the others does not see it. -/
theorem rcAllocMemref_built (memrefs : Memrefs) (built : Built memrefs) (address : UInt32)
    (size : MemSize) :
    Built (rcAllocMemref memrefs address size).1 := by
  rw [rcAllocMemref]
  split
  next => exact built
  next missing =>
    have apart := List.findIdx?_eq_none_iff.mp missing
    have grown := extends_append memrefs [⟨⟨0, 0, size, false, .unsigned⟩, address⟩] []
    rw [List.append_nil] at grown
    have fresh : ∀ (i : Nat) (memref : Memref), memrefs.memrefs[i]? = some memref →
        memref.address = address → memref.value.size ≠ size := by
      intro i memref found same
      have differ := apart memref (List.mem_of_getElem? found)
      simp only [same, true_and, decide_eq_false_iff_not] at differ
      exact differ
    refine ⟨fun memref member => ?_, fun i j first second here there addresses sizes => ?_,
      fun index entry found => ?_⟩
    · obtain old | new := List.mem_append.mp member
      · exact built.typed memref old
      · rw [List.mem_singleton.mp new]
    · rw [List.getElem?_append] at here there
      split at here <;> split at there
      next => exact built.unique i j first second here there addresses sizes
      next =>
        obtain ⟨_, rfl⟩ := List.getElem?_eq_some_iff.mp there
        rw [List.getElem_singleton] at addresses sizes
        exact absurd sizes (fresh i first here addresses)
      next =>
        obtain ⟨_, rfl⟩ := List.getElem?_eq_some_iff.mp here
        rw [List.getElem_singleton] at addresses sizes
        exact absurd sizes.symm (fresh j second there addresses.symm)
      next =>
        obtain ⟨first', _⟩ := List.getElem?_eq_some_iff.mp here
        obtain ⟨second', _⟩ := List.getElem?_eq_some_iff.mp there
        rw [List.length_singleton] at first' second'
        omega
    · exact Sound.extends grown built index entry found entry.memref.value rfl rfl

/-- A computed reference that is added is computed in its own way: its operands are those asked
for, its type that of its size, and what was there keeps its place before it. -/
theorem rcAllocModifiedMemref_built (memrefs : Memrefs) (built : Built memrefs) (size : MemSize)
    (parent : Operand) (modifierType : Operator) (modifier : Operand)
    (parentFits : Fits memrefs parent) (modifierFits : Fits memrefs modifier) :
    Built (rcAllocModifiedMemref memrefs size parent modifierType modifier).1 := by
  rw [rcAllocModifiedMemref]
  dsimp only
  split
  next => exact built
  next missing =>
    have apart := List.findIdx?_eq_none_iff.mp missing
    generalize valued :
      (⟨⟨⟨0, 0, size, false, if rcMemsizeIsFloat size = true then .float else .unsigned⟩,
        shownAddress memrefs modifier⟩,
      parent, modifier, modifierType, depthOf memrefs parent⟩ : ModifiedMemref) = added
    have grown := extends_append memrefs [] [added]
    rw [List.append_nil] at grown
    refine ⟨built.typed, built.unique, fun index entry found => ?_⟩
    rw [List.getElem?_append] at found
    split at found
    next => exact Sound.extends grown built index entry found entry.memref.value rfl rfl
    next later =>
      obtain ⟨here, rfl⟩ := List.getElem?_eq_some_iff.mp found
      have last : index = memrefs.modifiedMemrefs.length := by
        rw [List.length_singleton] at here
        omega
      rw [List.getElem_singleton, last, ← valued]
      rw [← valued] at grown
      refine ⟨inside_before memrefs _ parentFits.inside,
        inside_before memrefs _ modifierFits.inside,
        parentFits.extends grown built, modifierFits.extends grown built, rfl, ?_⟩
      intro earlier less other there plainParent plainModifier sizes types parents modifiers
      rw [List.getElem?_append_left less] at there
      have parentsEqual := rcOperandsAreEqual_alike memrefs (ordered_forward built.ordered)
        memrefs.modifiedMemrefs.length other.parent parent
        (Plain.shrink grown built plainParent parentFits.inside).leads parents
          (inside_before memrefs _ parentFits.inside)
      have modifiersEqual := rcOperandsAreEqual_alike memrefs (ordered_forward built.ordered)
        memrefs.modifiedMemrefs.length other.modifier modifier
        (Plain.shrink grown built plainModifier modifierFits.inside).leads modifiers
          (inside_before memrefs _ modifierFits.inside)
      have differ := apart other (List.mem_of_getElem? there)
      simp only [parentsEqual, modifiersEqual, and_self, and_true,
        decide_eq_false_iff_not] at differ
      exact differ ⟨sizes, types⟩

/-- Parsing and frames lead from such pools to such pools: allocation by the lemmas above, and a
frame because it keeps addresses, sizes, types and operands. -/
theorem change_built (memrefs : Memrefs) (built : Built memrefs) (change : Change)
    (made : Made memrefs change) :
    Built (memrefs.change change) := by
  cases change with
  | memref address size => exact rcAllocMemref_built memrefs built address size
  | modified size parent modifierType modifier =>
    exact rcAllocModifiedMemref_built memrefs built size parent modifierType modifier made.1 made.2
  | frame peek =>
    have grown := change_extends memrefs built.ordered (.frame peek)
    have kept : ∀ memref : Memref, (updateMemref peek memref).address = memref.address ∧
        (updateMemref peek memref).value.size = memref.value.size ∧
        (updateMemref peek memref).value.type = memref.value.type := by
      intro memref
      rw [updateMemref]
      split
      next => exact ⟨rfl, rcUpdateMemrefValue_kind _ _⟩
      next => exact ⟨rfl, rfl, rfl⟩
    refine ⟨fun memref member => ?_, fun i j first second here there addresses sizes => ?_,
      fun index entry found => ?_⟩
    · rw [Memrefs.change, rcUpdateMemrefValues_memrefs] at member
      obtain ⟨before, old, rfl⟩ := List.mem_map.mp member
      exact (kept before).2.2.trans (built.typed before old)
    · rw [Memrefs.change, rcUpdateMemrefValues_memrefs, List.getElem?_map] at here there
      obtain ⟨before, old, rfl⟩ := Option.map_eq_some_iff.mp here
      obtain ⟨before', old', rfl⟩ := Option.map_eq_some_iff.mp there
      exact built.unique i j before before' old old'
        ((kept before).1.symm.trans (addresses.trans (kept before').1))
        ((kept before).2.1.symm.trans (sizes.trans (kept before').2.1))
    · have inside : index < memrefs.modifiedMemrefs.length := by
        rw [Memrefs.change, rcUpdateMemrefValues_modified memrefs built.ordered] at found
        obtain ⟨before, old, _⟩ := Option.map_eq_some_iff.mp found
        exact (List.getElem?_eq_some_iff.mp old).1
      obtain ⟨old, value, found', rfl, same, type⟩ := grown.old index inside entry found
      exact Sound.extends grown built index old found' value same type

/-! ## Allocation -/

/-- What an allocation gives, new or found: a reference of the size that is computed so, from
operands that read the same. -/
theorem rcAllocModifiedMemref_entry (memrefs : Memrefs) (built : Built memrefs) (size : MemSize)
    (parent : Operand) (modifierType : Operator) (modifier : Operand)
    (plainParent : Plain memrefs parent) (plainModifier : Plain memrefs modifier) :
    ∃ index entry, (rcAllocModifiedMemref memrefs size parent modifierType modifier).2 =
      .modified index ∧
      (rcAllocModifiedMemref memrefs size parent modifierType modifier).1.modifiedMemrefs[index]? =
        some entry ∧
        entry.memref.value.size = size ∧ entry.modifierType = modifierType ∧
          Alike entry.parent parent ∧ Alike entry.modifier modifier := by
  rw [rcAllocModifiedMemref]
  dsimp only
  split
  next index found =>
    obtain ⟨inside, same, _⟩ := List.findIdx?_eq_some_iff_getElem.mp found
    have here := List.getElem?_eq_getElem inside
    generalize memrefs.modifiedMemrefs[index] = entry at here same
    have sound := built.computed index entry here
    obtain ⟨sizes, types, parents, modifiers⟩ := of_decide_eq_true same
    exact ⟨index, entry, rfl, here, sizes, types,
      rcOperandsAreEqual_plain memrefs built _ entry.parent parent sound.parentFits plainParent
        parents,
      rcOperandsAreEqual_plain memrefs built _ entry.modifier modifier sound.modifierFits
        plainModifier modifiers⟩
  next =>
    have last : ∀ added : ModifiedMemref,
        (memrefs.modifiedMemrefs ++ [added])[memrefs.modifiedMemrefs.length]? = some added :=
          fun added => List.getElem?_concat_length
    exact ⟨memrefs.modifiedMemrefs.length, _, rfl, last _, rfl, rfl, ⟨rfl, rfl⟩, ⟨rfl, rfl⟩⟩

/-- Pools with references added behind those of others. -/
structure Adds (before after : Memrefs) : Prop where
  memrefs : before.memrefs <+: after.memrefs
  modified : before.modifiedMemrefs <+: after.modifiedMemrefs

/-- Nothing is added to the pools. -/
theorem Adds.refl (memrefs : Memrefs) : Adds memrefs memrefs :=
  ⟨List.prefix_refl _, List.prefix_refl _⟩

/-- Additions follow each other. -/
theorem Adds.trans {first second third : Memrefs} (one : Adds first second)
    (two : Adds second third) : Adds first third :=
  ⟨one.memrefs.trans two.memrefs, one.modified.trans two.modified⟩

/-- Pools with additions extend those before them. -/
theorem Adds.extends {before after : Memrefs} (adds : Adds before after) :
    Extends before after := by
  obtain ⟨memrefs, modified⟩ := before
  obtain ⟨memrefs', modified'⟩ := after
  obtain ⟨⟨added, rfl⟩, ⟨computed, rfl⟩⟩ := adds
  exact extends_append ⟨memrefs, modified⟩ added computed

/-- An operand has one value in both, since it leads into the smaller pools, which are a prefix of
the larger ones. -/
theorem Adds.evaluate {before after : Memrefs} (adds : Adds before after) (operand : Operand)
    (inside : Source.Inside before operand.source) :
    rcEvaluateOperand after operand = rcEvaluateOperand before operand := by
  obtain ⟨source, recalled, isCombining⟩ := operand
  match source, inside with
  | .memref access (.memref index) size, inside =>
    have same := adds.memrefs.getElem inside
    simp only [rcEvaluateOperand, Memrefs.deref, List.getElem?_eq_getElem inside, same,
      List.getElem?_eq_getElem (Nat.lt_of_lt_of_le inside adds.memrefs.length_le)]
  | .memref access (.modified index) size, inside =>
    have same := adds.modified.getElem inside
    simp only [rcEvaluateOperand, Memrefs.deref, List.getElem?_eq_getElem inside, same,
      List.getElem?_eq_getElem (Nat.lt_of_lt_of_le inside adds.modified.length_le)]
  | .const _, _ | .fp _, _ | .func, _ | .nothing, _ => rfl

/-- Allocating a plain reference adds one at most, and returns one within the pools. -/
theorem rcAllocMemref_adds (memrefs : Memrefs) (address : UInt32) (size : MemSize) :
    Adds memrefs (rcAllocMemref memrefs address size).1 ∧
      ∃ index, (rcAllocMemref memrefs address size).2 = .memref index ∧
        index < (rcAllocMemref memrefs address size).1.memrefs.length := by
  rw [rcAllocMemref]
  split
  next index found =>
    obtain ⟨inside, _⟩ := List.findIdx?_eq_some_iff_getElem.mp found
    exact ⟨.refl memrefs, index, rfl, inside⟩
  next =>
    refine ⟨⟨List.prefix_append _ _, List.prefix_refl _⟩, memrefs.memrefs.length, rfl, ?_⟩
    rw [List.length_append]
    exact Nat.lt_succ_self _

/-- Allocating a computed reference adds one at most. -/
theorem rcAllocModifiedMemref_adds (memrefs : Memrefs) (size : MemSize) (parent : Operand)
    (modifierType : Operator) (modifier : Operand) :
    Adds memrefs (rcAllocModifiedMemref memrefs size parent modifierType modifier).1 := by
  obtain same | ⟨added, _, _, grows⟩ :=
    rcAllocModifiedMemref_added memrefs size parent modifierType modifier
  · rw [same]
    exact .refl memrefs
  · rw [grows]
    exact ⟨List.prefix_refl _, List.prefix_append _ _⟩

/-- A computed reference that is allocated is within the pools: at the place where an equal one
was found, or at their end. -/
theorem rcAllocModifiedMemref_inside (memrefs : Memrefs) (size : MemSize) (parent : Operand)
    (modifierType : Operator) (modifier : Operand) (access : Access) (operandSize : MemSize) :
    Source.Inside (rcAllocModifiedMemref memrefs size parent modifierType modifier).1
      (.memref access (rcAllocModifiedMemref memrefs size parent
        modifierType modifier).2 operandSize) := by
  rw [rcAllocModifiedMemref]
  dsimp only
  split
  next index found =>
    obtain ⟨inside, _⟩ := List.findIdx?_eq_some_iff_getElem.mp found
    exact inside
  next =>
    show memrefs.modifiedMemrefs.length < (memrefs.modifiedMemrefs ++ [_]).length
    rw [List.length_append]
    exact Nat.lt_succ_self _

/-- It is a float if its size is, whether it was found or added; an indirect one is told by the
size that it is read with instead. -/
theorem rcAllocModifiedMemref_float (memrefs : Memrefs) (size : MemSize) (parent : Operand)
    (modifierType : Operator) (modifier : Operand) (computed : modifierType ≠ .indirectRead)
    (access : Access) (operandSize : MemSize) (isCombining : Bool) :
    rcOperandIsFloat (rcAllocModifiedMemref memrefs size parent modifierType modifier).1
      ⟨.memref access (rcAllocModifiedMemref memrefs size parent
        modifierType modifier).2 operandSize, false, isCombining⟩ = rcMemsizeIsFloat size := by
  rw [rcAllocModifiedMemref]
  dsimp only
  split
  next index found =>
    obtain ⟨inside, same, _⟩ := List.findIdx?_eq_some_iff_getElem.mp found
    obtain ⟨sizes, types, _⟩ := of_decide_eq_true same
    simp only [rcOperandIsFloat, Bool.false_eq_true, if_false, List.getElem?_eq_getElem inside,
      sizes, types, ne_eq, computed, not_false_eq_true, if_true]
  next =>
    simp only [rcOperandIsFloat, Bool.false_eq_true, if_false, List.getElem?_concat_length, ne_eq,
      computed, not_false_eq_true, if_true]

/-- An operand that reads what is allocated is one that parsing makes. Where a reference was found
it is an equal one, with the same size and operator, and operands that compare equal. -/
theorem rcAllocModifiedMemref_fits (memrefs : Memrefs) (built : Built memrefs) (size : MemSize)
    (parent : Operand) (modifierType : Operator) (modifier : Operand)
    (parentFits : Fits memrefs parent) (modifierFits : Fits memrefs modifier) (access : Access)
    (operandSize : MemSize) (recalled isCombining : Bool)
    (sized : Plain memrefs parent → Plain memrefs modifier →
      Sized memrefs access operandSize size parent modifierType modifier) :
    Fits (rcAllocModifiedMemref memrefs size parent modifierType modifier).1
      ⟨.memref access (rcAllocModifiedMemref memrefs size parent
        modifierType modifier).2 operandSize, recalled, isCombining⟩ := by
  have adds := rcAllocModifiedMemref_adds memrefs size parent modifierType modifier
  refine ⟨rcAllocModifiedMemref_inside memrefs size parent modifierType modifier access operandSize,
    ?_⟩
  intro _ access' index' size' entry source found' plainParent plainModifier
  revert adds source found' plainParent plainModifier
  rw [rcAllocModifiedMemref]
  dsimp only
  split
  next index found =>
    intro _ source found' plainParent plainModifier
    obtain ⟨inside, same, _⟩ := List.findIdx?_eq_some_iff_getElem.mp found
    cases source
    rw [List.getElem?_eq_getElem inside] at found'
    obtain rfl := Option.some.inj found'
    obtain ⟨sizes, types, parents, modifiers⟩ := of_decide_eq_true same
    have parentAlike := rcOperandsAreEqual_plain memrefs built _ parent _ parentFits plainParent
      (rcOperandsAreEqual_symm memrefs _ _ parent plainParent parents)
    have modifierAlike :=
      rcOperandsAreEqual_plain memrefs built _ modifier _ modifierFits plainModifier
      (rcOperandsAreEqual_symm memrefs _ _ modifier plainModifier modifiers)
    rw [SizedFor, Sized, sizes, types,
      ← computedSize_alike memrefs modifierType parentAlike modifierAlike]
    exact sized (plainParent.alike parentAlike) (plainModifier.alike modifierAlike)
  next =>
    intro adds source found' plainParent plainModifier
    cases source
    rw [List.getElem?_concat_length] at found'
    obtain rfl := Option.some.inj found'
    rw [SizedFor, Sized,
      adds.extends.computedSize parent modifier modifierType parentFits.inside modifierFits.inside]
    exact sized (Plain.shrink adds.extends built plainParent parentFits.inside)
      (Plain.shrink adds.extends built plainModifier modifierFits.inside)

end NoMercyRecomp.SharedReferences

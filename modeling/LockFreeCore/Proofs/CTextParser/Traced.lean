import LockFreeCore.Model.CTextParser
import Mathlib.Data.Option.Basic

/-! # The parser with what it touches

A run that touches only what fits in the arrays is a run of the parser, and there are no others.
-/

namespace LockFreeCore.CTextParser

variable {β γ V : Type*} {run : Option β} {traced : Traced β} {touches : List Touch} {parser : CTextParser}

/-- An index or a length for which the arrays have room; a string needs its NUL byte. -/
def Touch.Fits : Touch → Prop
  | .slot i => i < MAX_NAMESPACE_COUNT
  | .copy length => length ≤ 255
  | .cursor _ => True

/-- All that is touched fits. -/
def Fit (touches : List Touch) : Prop := ∀ touch ∈ touches, touch.Fits

theorem Traced.after_after (more : List Touch) : (traced.after more).after touches = traced.after (touches ++ more) :=
  Prod.ext (List.append_assoc ..).symm rfl

/-- A run that is cut off at what does not fit. -/
def Agrees (run : Option β) (traced : Traced β) : Prop :=
  ∀ result, run = some result ↔ Fit traced.1 ∧ traced.2 = some result

theorem fit_append {more : List Touch} : Fit (touches ++ more) ↔ Fit touches ∧ Fit more := List.forall_mem_append

theorem fit_singleton {touch : Touch} : Fit [touch] ↔ touch.Fits := List.forall_mem_singleton

theorem fit_copy {word : List UInt8} : Fit [.copy word.length] ↔ word.length < 256 :=
  fit_singleton.trans (@Nat.lt_succ_iff word.length 255).symm

theorem fit_cursor (m_curPos : ℕ) : Fit [.cursor m_curPos] := List.forall_mem_singleton.mpr trivial

theorem fit_slots : Fit ((List.range MAX_NAMESPACE_COUNT).map .slot) := by
  intro touch member
  obtain ⟨i, below, rfl⟩ := List.mem_map.mp member
  exact List.mem_range.mp below

theorem agrees_return (result : Option β) : Agrees result ([], result) :=
  fun _ => (and_iff_right (List.forall_mem_nil _)).symm

theorem Agrees.after (agrees : Agrees run traced) (fit : Fit touches) : Agrees run (traced.after touches) := by
  intro result
  rw [agrees, Traced.after, fit_append, and_iff_right fit]

theorem agrees_cut (unfit : ¬Fit touches) : Agrees none (traced.after touches) := by
  intro result
  rw [Traced.after, fit_append]
  exact iff_of_false nofun fun both => unfit both.1.1

theorem Agrees.bind {next : β → Option γ} {tracedNext : β → Traced γ} (agrees : Agrees run traced)
    (goes : ∀ result, Agrees (next result) (tracedNext result)) :
    Agrees (run.bind next) (traced.bind tracedNext) := by
  intro last
  rw [Option.bind_eq_some_iff]
  obtain ⟨first, result⟩ := traced
  cases result with
  | none => exact iff_of_false (fun ⟨mid, ran, _⟩ => nomatch ((agrees mid).mp ran).2) fun both => nomatch both.2
  | some mid =>
    change _ ↔ Fit (first ++ (tracedNext mid).1) ∧ (tracedNext mid).2 = some last
    rw [fit_append, and_assoc, ← goes mid last]
    constructor
    · rintro ⟨other, ran, later⟩
      obtain ⟨fit, same⟩ := (agrees other).mp ran
      cases same
      exact ⟨fit, later⟩
    · rintro ⟨fit, later⟩
      exact ⟨mid, (agrees mid).mpr ⟨fit, rfl⟩, later⟩

theorem agrees_tokenized {step : Option (β × CTextParser)} {next : β × CTextParser → Option γ}
    {tracedNext : β → CTextParser → Traced γ}
    (goes : ∀ result parser, Agrees (next (result, parser)) (tracedNext result parser)) :
    Agrees (step.bind next) (tokenized step tracedNext) := by
  cases step with
  | none => exact agrees_return none
  | some out => exact (goes out.1 out.2).after (fit_cursor _)

/-- A copy that fits leaves a C string. -/
theorem agrees_copy {word : List UInt8} {next : List UInt8 → Option β}
    (goes : word.length < 256 → Agrees (next (cString word)) traced) :
    Agrees ((chWord word).bind next) (traced.after [.copy word.length]) := by
  rw [chWord]
  split_ifs with short
  · exact (goes short).after (fit_copy.mpr short)
  · exact agrees_cut fun fit => short (fit_copy.mp fit)

theorem closeLoop_agrees {NsCount : ℕ} (few : NsCount < MAX_NAMESPACE_COUNT) (fuel : ℕ) (parser : CTextParser) :
    Agrees (closeLoop NsCount fuel parser) (closeTraced NsCount fuel parser) := by
  induction fuel generalizing parser with
  | zero => exact agrees_return none
  | succ fuel ih =>
    rw [closeLoop, closeTraced]
    refine agrees_tokenized fun word parser => ?_
    cases word with
    | none => exact agrees_return _
    | some word =>
      refine agrees_copy fun _ => ?_
      split_ifs with closes
      · intro result
        exact (and_iff_right ((@fit_singleton (.slot NsCount)).mpr few)).symm
      · exact ih parser

theorem nameLoop_agrees (fuel NsCount : ℕ) (parser : CTextParser) :
    Agrees (nameLoop fuel NsCount parser) (nameTraced fuel NsCount parser) := by
  induction fuel generalizing NsCount parser with
  | zero => exact agrees_return none
  | succ fuel ih =>
    rw [nameLoop, nameTraced]
    refine agrees_tokenized fun word parser => ?_
    cases word with
    | none => exact agrees_return _
    | some word =>
      dsimp only
      rw [← List.singleton_append, ← Traced.after_after]
      split_ifs with colon few
      · refine agrees_copy fun _ => Agrees.after ?_ (fit_singleton.mpr few)
        exact (closeLoop_agrees few _ _).bind fun parser => ih (NsCount + 1) parser
      · exact agrees_copy fun _ => agrees_cut fun fit => few (fit_singleton.mp fit)
      · exact ih NsCount parser

/-- `loadText` does what it does with larger arrays, when all that it touches fits. -/
theorem loadText_agrees (file : List UInt8) (parser : CTextParser) (result : Bool × CTextParser) :
    parser.loadText (some file) = some result ↔
      result.1 = true ∧ Fit (parser.loadTraced file).1 ∧ (parser.loadTraced file).2 = some result.2 := by
  have agrees : Agrees (checkNameSpace { parser with m_fileSize := file.length, m_fileBuffer := file })
      (parser.loadTraced file) := by
    rw [checkNameSpace, Option.map_eq_bind, loadTraced]
    exact Agrees.after (Agrees.bind (nameLoop_agrees _ _ _) fun parser => agrees_return _) fit_slots
  obtain ⟨found, loaded⟩ := result
  rw [loadText, Option.map_eq_some_iff, ← agrees loaded]
  constructor
  · rintro ⟨other, ran, same⟩
    cases same
    exact ⟨rfl, ran⟩
  · rintro ⟨rfl, ran⟩
    exact ⟨loaded, ran, rfl⟩

section Lookups

variable {value : CTextParser → Result V} {tracedValue : List UInt8 → CTextParser → TracedResult V}

theorem getValue_agrees
    (values : ∀ equals parser, equals.length < 256 → cString equals = ascii "=" →
      Agrees (value parser) (tracedValue equals parser))
    (szName NameSpace : List UInt8) (parser : CTextParser) :
    Agrees (parser.getValue value szName NameSpace) (parser.lookupTraced tracedValue szName NameSpace) := by
  have loop (fuel : ℕ) (parser : CTextParser) :
      Agrees (valueLoop value szName fuel parser) (valueTraced tracedValue szName fuel parser) := by
    induction fuel generalizing parser with
    | zero => exact agrees_return none
    | succ fuel ih =>
      rw [valueLoop, valueTraced]
      refine agrees_tokenized fun word parser => ?_
      cases word with
      | none => exact agrees_return _
      | some word =>
        refine agrees_copy fun _ => ?_
        dsimp only
        split_ifs with found
        · refine agrees_tokenized fun word parser => ?_
          cases word with
          | none => exact agrees_return _
          | some word =>
            refine agrees_copy fun short => ?_
            dsimp only
            split_ifs with sign
            · exact values word parser short sign
            · exact agrees_return _
        · exact ih parser
  rw [getValue, lookupTraced]
  generalize parser.findNameSpace NameSpace = found
  obtain ⟨isFind, parser⟩ := found
  refine Agrees.after ?_ fit_slots
  dsimp only
  split_ifs with found
  · exact loop _ _
  · exact agrees_return _

theorem wordTraced_agrees (convert : List UInt8 → V) (equals : List UInt8) (parser : CTextParser) :
    Agrees (parser.getNextWord.bind fun (word, parser) =>
      match word with
      | none => some ((false, none), parser)
      | some word => (chWord word).map fun word => ((true, some (convert word)), parser))
      (wordTraced convert equals parser) := by
  rw [wordTraced]
  refine agrees_tokenized fun word parser => ?_
  cases word with
  | none => exact agrees_return _
  | some word =>
    dsimp only
    rw [Option.map_eq_bind]
    exact agrees_copy fun _ => agrees_return _

theorem getValueInt_agrees (szName NameSpace : List UInt8) (parser : CTextParser) :
    Agrees (parser.getValueInt szName NameSpace) (parser.lookupTraced (wordTraced atoi) szName NameSpace) :=
  getValue_agrees (fun equals parser _ _ => wordTraced_agrees atoi equals parser) szName NameSpace parser

theorem getValueDouble_agrees {Double : Type*} (atof : List UInt8 → Double) (szName NameSpace : List UInt8)
    (parser : CTextParser) :
    Agrees (parser.getValueDouble atof szName NameSpace) (parser.lookupTraced (wordTraced atof) szName NameSpace) :=
  getValue_agrees (fun equals parser _ _ => wordTraced_agrees atof equals parser) szName NameSpace parser

theorem stringTraced_agrees (convert : List UInt8 → V) (equals : List UInt8) (parser : CTextParser)
    (short : equals.length < 256) (sign : cString equals = ascii "=") :
    Agrees (parser.getStringWord.bind fun ((found, word), parser) =>
      if found then (chWord (word.getD (ascii "="))).map fun word => ((true, some (convert word)), parser)
      else some ((false, none), parser))
      (stringTraced convert equals parser) := by
  rw [stringTraced]
  refine agrees_tokenized fun (found, word) parser => ?_
  dsimp only
  split_ifs with string
  · rw [Option.map_eq_bind]
    cases word with
    | none =>
      intro result
      change some ((true, some (convert (ascii "="))), parser) = some result ↔
        Fit [.copy equals.length] ∧ some ((true, some (convert (cString equals))), parser) = some result
      rw [sign, and_iff_right (fit_copy.mpr short)]
    | some word => exact agrees_copy fun _ => agrees_return _
  · exact agrees_return _

theorem getValueString_agrees (szName NameSpace : List UInt8) (parser : CTextParser) :
    Agrees (parser.getValueString szName NameSpace) (parser.lookupTraced (stringTraced id) szName NameSpace) :=
  getValue_agrees (stringTraced_agrees id) szName NameSpace parser

theorem getValueWString_agrees {Wide : Type*} (mbstowcs : List UInt8 → Wide) (szName NameSpace : List UInt8)
    (parser : CTextParser) :
    Agrees (parser.getValueWString mbstowcs szName NameSpace)
      (parser.lookupTraced (stringTraced mbstowcs) szName NameSpace) :=
  getValue_agrees (stringTraced_agrees mbstowcs) szName NameSpace parser

end Lookups

end LockFreeCore.CTextParser

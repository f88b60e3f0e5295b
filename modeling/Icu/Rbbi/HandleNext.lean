import Mathlib.Algebra.GroupWithZero.Nat
import Mathlib.Data.List.Basic
import Mathlib.Data.List.Infix

/-! # The break engine

The engine runs a compiled state table over the text from the current position, and remembers the
position of the last accepting state. Table rows and categories outside of the table cannot be
built.
-/

namespace Icu.Rbbi

structure TextChar where
  c : Nat
  units : Nat
  pos : 0 < units

/-- The text, with the number of code points before the current position. -/
structure UText where
  chars : List TextChar
  position : Nat

namespace UText

def nativeIndexAt (text : UText) (position : Nat) : Nat :=
  ((text.chars.take position).map TextChar.units).sum

def getNativeIndex (text : UText) : Nat := text.nativeIndexAt text.position

/-- The code point at the position and the text behind it; `none` is `U_SENTINEL`. -/
def next32 (text : UText) : Option Nat × UText :=
  match text.chars[text.position]? with
  | none => (none, text)
  | some ch => (some ch.c, { text with position := text.position + 1 })

/-- Sets the position to the code point boundary at or before the index. -/
def setNativeIndex (text : UText) (index : Nat) : UText :=
  { text with
    position := (List.range text.chars.length).countP fun i =>
      decide (text.nativeIndexAt (i + 1) ≤ index) }

end UText

structure RBBIStateTableRow (states cats : Nat) where
  fAccepting : Int
  fLookAhead : Int
  fTagIdx : Int
  fNextState : Fin cats → Fin states

/-- A state table with `states + 2` states for `cats + 3` categories. -/
structure RBBIStateTable (states cats : Nat) where
  fFlags : Nat
  row : Fin (states + 2) → RBBIStateTableRow (states + 2) (cats + 3)

def rbbiLookaheadHardBreak : Nat := 1

def rbbiBofRequired : Nat := 2

/-- The trie, whose values are categories when the dictionary bit is off. -/
structure RBBIDataWrapper (cats : Nat) where
  fTrie : Nat → UInt16
  valid : ∀ c, (fTrie c &&& ~~~0x4000).toNat < cats + 3

/-- The category of a character, without the dictionary bit. -/
def RBBIDataWrapper.category {cats : Nat} (fData : RBBIDataWrapper cats) (c : Nat) :
    Fin (cats + 3) := ⟨(fData.fTrie c &&& ~~~0x4000).toNat, fData.valid c⟩

/-! ## The engine -/

structure RuleBasedBreakIterator (cats : Nat) where
  fText : UText
  fData : Option (RBBIDataWrapper cats)
  fLastStatusIndexValid : Bool
  fLastRuleStatusIndex : Int
  fDictionaryCharCount : Nat

inductive RBBIRunMode
  /-- before the first character of the input -/
  | start
  /-- in the user text -/
  | run
  /-- after the end of the user text -/
  | atEnd
deriving Repr, DecidableEq

/-- The local variables, and the members that the loop changes. -/
structure EngineState (states : Nat) where
  fText : UText
  state : Fin (states + 2)
  mode : RBBIRunMode
  c : Option Nat
  lookaheadStatus : Int
  lookaheadTagIdx : Int
  lookaheadResult : Nat
  result : Nat
  fLastRuleStatusIndex : Int
  fDictionaryCharCount : Nat

inductive RoundEnd (states : Nat)
  | next (s : EngineState states)
  | stop (s : EngineState states)
  /-- a return in the middle of the loop -/
  | hardBreak (s : EngineState states)

section

variable {states cats : Nat}

/-- From `continueOn` to the end of the loop. -/
def continueOn (s : EngineState states) : RoundEnd states :=
  if s.state = 0 then .stop s
  else
    match s.mode with
    | .run =>
      let (c, fText) := s.fText.next32
      .next { s with c := c, fText := fText }
    | .start => .next { s with mode := .run }
    | .atEnd => .next s

/-- The state transition for a category, and what follows from the new state. -/
def transition (statetable : RBBIStateTable states cats) (category : Fin (cats + 3))
    (s : EngineState states) : RoundEnd states :=
  let state := (statetable.row s.state).fNextState category
  let row := statetable.row state
  let s := { s with state := state }
  let s :=
    if row.fAccepting = -1 then
      { s with
        result := if s.mode ≠ .start then s.fText.getNativeIndex else s.result
        fLastRuleStatusIndex := row.fTagIdx }
    else s
  if row.fLookAhead ≠ 0 then
    if s.lookaheadStatus ≠ 0 ∧ row.fAccepting = s.lookaheadStatus then
      -- the look-ahead match is completed
      let s := { s with
        result := s.lookaheadResult
        fLastRuleStatusIndex := s.lookaheadTagIdx
        lookaheadStatus := 0 }
      if statetable.fFlags &&& rbbiLookaheadHardBreak ≠ 0 then
        .hardBreak { s with fText := s.fText.setNativeIndex s.result }
      else continueOn s
    else
      continueOn { s with
        lookaheadResult := s.fText.getNativeIndex
        lookaheadStatus := row.fLookAhead
        lookaheadTagIdx := row.fTagIdx }
  else continueOn (if row.fAccepting ≠ 0 then { s with lookaheadStatus := 0 } else s)

/-- One round of the loop, where category 1 is for the end of the input and category 2 for the
beginning. -/
def round (statetable : RBBIStateTable states cats) (fData : RBBIDataWrapper cats)
    (s : EngineState states) : RoundEnd states :=
  match s.c, s.mode with
  | none, .atEnd =>
    if s.lookaheadResult > s.result then
      .stop { s with
        result := s.lookaheadResult
        fLastRuleStatusIndex := s.lookaheadTagIdx
        lookaheadStatus := 0 }
    else .stop s
  | none, _ => transition statetable 1 { s with mode := .atEnd }
  | some _, .atEnd => transition statetable 1 s
  | some _, .start => transition statetable 2 s
  | some c, .run =>
    transition statetable (fData.category c)
      (if fData.fTrie c &&& 0x4000 ≠ 0 then
        { s with fDictionaryCharCount := s.fDictionaryCharCount + 1 }
      else s)

/-- The loop, with the state behind it and whether it is left by a return. -/
def runEngine (statetable : RBBIStateTable states cats) (fData : RBBIDataWrapper cats) :
    Nat → EngineState states → Option (EngineState states × Bool)
  | 0, _ => none
  | fuel + 1, s =>
    match round statetable fData s with
    | .next s => runEngine statetable fData fuel s
    | .stop s => some (s, false)
    | .hardBreak s => some (s, true)

def finish (initialPosition : Nat) (s : EngineState states) : EngineState states :=
  let s :=
    if s.result = initialPosition then
      let fText := (s.fText.setNativeIndex initialPosition).next32.2
      { s with fText := fText, result := fText.getNativeIndex }
    else s
  { s with fText := s.fText.setNativeIndex s.result }

/-- `handleNext(statetable)`, where no result is `DONE`. -/
def handleNext (fuel : Nat) (statetable : RBBIStateTable states cats)
    (iter : RuleBasedBreakIterator cats) :
    Option (Option Nat × RuleBasedBreakIterator cats) :=
  let iter := { iter with fLastStatusIndexValid := true, fLastRuleStatusIndex := 0 }
  let initialPosition := iter.fText.getNativeIndex
  match iter.fData, iter.fText.next32 with
  | some fData, (some c, fText) =>
    let s : EngineState states :=
      { fText := fText
        state := 1
        mode := if statetable.fFlags &&& rbbiBofRequired ≠ 0 then .start else .run
        c := some c
        lookaheadStatus := 0
        lookaheadTagIdx := 0
        lookaheadResult := 0
        result := initialPosition
        fLastRuleStatusIndex := 0
        fDictionaryCharCount := iter.fDictionaryCharCount }
    (runEngine statetable fData fuel s).map fun (s, returned) =>
      let s := if returned then s else finish initialPosition s
      (some s.result, { iter with
        fText := s.fText
        fLastRuleStatusIndex := s.fLastRuleStatusIndex
        fDictionaryCharCount := s.fDictionaryCharCount })
  | _, (_, fText) => some (none, { iter with fText := fText })

/-! ## Matches -/

namespace RBBIStateTable

/-- The state after some categories, from state 1. -/
def stateAfter (statetable : RBBIStateTable states cats) (w : List (Fin (cats + 3))) :
    Fin (states + 2) :=
  w.foldl (fun state category => (statetable.row state).fNextState category) 1

/-- The table comes to an accepting state, and not to state 0 before the last category. -/
structure Matches (statetable : RBBIStateTable states cats) (w : List (Fin (cats + 3))) : Prop where
  accepting : (statetable.row (statetable.stateAfter w)).fAccepting = -1
  running : ∀ u, u <+: w → u ≠ w → statetable.stateAfter u ≠ 0

/-- The table comes to an accepting state, and never to state 0. -/
def Accepts (statetable : RBBIStateTable states cats) (w : List (Fin (cats + 3))) : Prop :=
  (statetable.row (statetable.stateAfter w)).fAccepting = -1 ∧
    ∀ u, u <+: w → statetable.stateAfter u ≠ 0

end RBBIStateTable

/-- The first `m` code points match, behind the categories `before`. At the end of the text they may
match together with the category for the end. -/
def MatchesPrefix (Match : List (Fin (cats + 3)) → Prop) (before text : List (Fin (cats + 3)))
    (m : Nat) : Prop :=
  Match (before ++ text.take m) ∨ m = text.length ∧ Match (before ++ text ++ [1])

def UText.categories (text : UText) (fData : RBBIDataWrapper cats) : List (Fin (cats + 3)) :=
  (text.chars.drop text.position).map fun ch => fData.category ch.c

end

end Icu.Rbbi

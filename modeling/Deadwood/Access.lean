/-
  Accessibility: the tiers of lexical visibility, narrowest first, and whether a tier was written
  in the source or taken over from what encloses the declaration.
-/

namespace Deadwood

open Std

/-- The tiers of visibility, narrowest first. -/
inductive Tier where
  | privateTier
  | fileprivateTier
  | internalTier
  | publicTier
  | openTier
  deriving DecidableEq, Repr, Inhabited

namespace Tier

/-- Every tier, narrowest first. -/
def all : List Tier := [privateTier, fileprivateTier, internalTier, publicTier, openTier]

/-- How wide a tier is. -/
def rank : Tier → Nat
  | privateTier => 0
  | fileprivateTier => 1
  | internalTier => 2
  | publicTier => 3
  | openTier => 4

/-- The word for a tier. -/
def label : Tier → String
  | privateTier => "private"
  | fileprivateTier => "fileprivate"
  | internalTier => "internal"
  | publicTier => "public"
  | openTier => "open"

/-- The tier of that word. -/
def ofLabel? (text : String) : Option Tier := all.find? fun t => t.label == text

/-- Whether other modules can see declarations of this tier. -/
def isExposed : Tier → Bool
  | publicTier | openTier => true
  | _ => false

end Tier

/-- A tier, and whether it was written in the source. -/
structure Access where
  tier : Tier
  written : Bool
  deriving DecidableEq, Repr

namespace Access

/-- What holds when the source says nothing. -/
def unwritten : Access := ⟨.internalTier, false⟩

instance : Inhabited Access := ⟨unwritten⟩

/-- Whether exactly this tier was written in the source. -/
def isWritten (a : Access) (tier : Tier) : Bool := a.written && a.tier == tier

end Access

end Deadwood

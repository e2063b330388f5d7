import RecyclingStack.Text

/-! How a stack reuses its nodes, and how one asks for a stack. -/
namespace RecyclingStack

/-- When retired nodes may be reused, and what makes a handle advance the epoch by itself. -/
structure Settings where
  gracePeriod : Nat
  /-- Operations of one handle between two advances; `0` for no such trigger. -/
  advanceInterval : Nat
  /-- Longest deferred list that does not force an advance; `none` for no such trigger. -/
  retireThreshold : Option Nat
  deriving DecidableEq

namespace Settings

def default : Settings := ⟨1, 1024, some 64⟩

def debugText (s : Settings) : String :=
  (Record.mk "Config"
    [("grace_period", toString s.gracePeriod),
      ("advance_interval", toString s.advanceInterval),
      ("retire_threshold", optionText s.retireThreshold)]).inline

end Settings

/-- One wish about a stack to be built. -/
inductive Setting where
  | gracePeriod (epochs : Nat)
  | advanceInterval (operations : Nat)
  | retireThreshold (nodes : Option Nat)
  | capacityLimit (slots : Option Nat)

structure Plan where
  settings : Settings
  capacityLimit : Option Nat

namespace Plan

def default : Plan := ⟨Settings.default, none⟩

/-- A later wish overrides an earlier one. A grace period is at least 1. -/
def set (p : Plan) : Setting → Plan
  | .gracePeriod epochs => { p with settings := { p.settings with gracePeriod := max epochs 1 } }
  | .advanceInterval operations =>
    { p with settings := { p.settings with advanceInterval := operations } }
  | .retireThreshold nodes => { p with settings := { p.settings with retireThreshold := nodes } }
  | .capacityLimit slots => { p with capacityLimit := slots }

def ofSettings (wishes : List Setting) : Plan := wishes.foldl set default

def debugText (p : Plan) : String :=
  (Record.mk "StackBuilder"
    [("config", p.settings.debugText),
      ("capacity_limit", optionText p.capacityLimit)]).inline

end Plan

end RecyclingStack

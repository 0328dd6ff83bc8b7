/-
# Story.Netconf -- chain ids and upgrade heights of `lib/netconf`

The heights at which a chain changes its rules are a table keyed by chain id and
upgrade name. A height is an `int64` in the source and an `Int` here; the table
is only ever compared with block heights.
-/
import Story.Errors

namespace Story.Netconf

open Story.Errors

def aeneidChainID : String := "devnet-1"
def storyChainID : String := "story-1"
def localChainID : String := "story-1001511"
def testChainID : String := "test-1"
def storyLocalnetID : String := "story-localnet"

def virgil : String := "virgil"
def ovid : String := "v1.2.0"
def polybius : String := "polybius"
def v121 : String := "v1.2.1"
def terence : String := "terence"

def errUnknownChainID : GoError := .new "unknown chain ID"
def errUnknownUpgrade : GoError := .new "unknown upgrade name"

/-- `UpgradeMap`, as an association list. -/
abbrev UpgradeMap := List (String × Int)

/-- `UpgradeHistories`. -/
def upgradeHistories : List (String × UpgradeMap) :=
  [ (testChainID, [(v121, 10), (terence, 50)]),
    (localChainID, [(v121, 0), (terence, 50)]),
    (storyLocalnetID, [(v121, 0), (terence, 0)]),
    (aeneidChainID,
      [(virgil, 345158), (ovid, 4362990), (v121, 5238000), (polybius, 6008000),
        (terence, 10886688)]),
    (storyChainID,
      [(virgil, 809988), (ovid, 4477880), (v121, 5084300), (polybius, 8270000),
        (terence, 11538000)]) ]

def UpgradeMap.getUpgradeBlock (um : UpgradeMap) (upgradeName : String) : Except GoError Int :=
  match um.lookup upgradeName with
  | some upgradeBlock => .ok upgradeBlock
  | none => .error errUnknownUpgrade

def getUpgradeHistory (chainID : String) : Except GoError UpgradeMap :=
  match upgradeHistories.lookup chainID with
  | some upgradeHistory => .ok upgradeHistory
  | none => .error errUnknownChainID

def getUpgradeHeight (chainID upgradeName : String) : Except GoError Int := do
  let upgradeMap ← getUpgradeHistory chainID
  upgradeMap.getUpgradeBlock upgradeName

/-- Has the upgrade taken effect on this chain at this height? -/
def isActive (upgradeName chainID : String) (blockNumber : Int) : Except GoError Bool := do
  let upgradeBlock ← getUpgradeHeight chainID upgradeName
  return upgradeBlock ≤ blockNumber

def isV121 (chainID : String) (blockNumber : Int) : Except GoError Bool :=
  isActive v121 chainID blockNumber

def isTerence (chainID : String) (blockNumber : Int) : Except GoError Bool :=
  isActive terence chainID blockNumber

theorem isActive_eq_ok_iff {upgradeName chainID : String} {blockNumber : Int} {b : Bool} :
    isActive upgradeName chainID blockNumber = .ok b ↔
      ∃ h, getUpgradeHeight chainID upgradeName = .ok h ∧ b = decide (h ≤ blockNumber) := by
  cases hg : getUpgradeHeight chainID upgradeName with
  | error e => simp [isActive, hg, Bind.bind, Except.bind]
  | ok h =>
      simp only [isActive, hg, Bind.bind, Except.bind, Pure.pure, Except.pure]
      constructor
      · intro hb
        exact ⟨h, rfl, (Except.ok.inj hb).symm⟩
      · rintro ⟨h', hh, rfl⟩
        rw [Except.ok.inj hh]

/-- An unknown chain or upgrade is reported with a plain error. -/
theorem is_of_isActive_eq_error {upgradeName chainID : String} {blockNumber : Int} {e : GoError}
    (h : isActive upgradeName chainID blockNumber = .error e) : e.is = [] := by
  cases hh : getUpgradeHistory chainID with
  | error e' =>
      have he : e' = e := by
        simpa [isActive, getUpgradeHeight, hh, Bind.bind, Except.bind] using h
      subst he
      unfold getUpgradeHistory at hh
      split at hh
      · cases hh
      · cases hh
        rfl
  | ok um =>
      cases hb : um.getUpgradeBlock upgradeName with
      | error e' =>
          have he : e' = e := by
            simpa [isActive, getUpgradeHeight, hh, hb, Bind.bind, Except.bind] using h
          subst he
          unfold UpgradeMap.getUpgradeBlock at hb
          split at hb
          · cases hb
          · cases hb
            rfl
      | ok b =>
          simp [isActive, getUpgradeHeight, hh, hb, Bind.bind, Except.bind, Pure.pure,
            Except.pure] at h

end Story.Netconf

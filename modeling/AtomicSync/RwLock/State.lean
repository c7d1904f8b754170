/-
  File:      AtomicSync/RwLock/State.lean
  Subject:   `RwLockState` of the preemptive spinning lock: the packed state word, as the
             source computes on it.

  The unsigned type `D` of width `w` is `BitVec w`; its wrapping `+` and `-` are the release
  build's. Every method of `RwLockState` that writes the word is one `try_spin_update_`: a
  spinning compare-exchange that either finds a value its predicate refuses and leaves the
  cell alone, or replaces the value it found by `desire` of it. As seen by the other threads
  that is one atomic step on the word (Lib/Atomics.lean), and `trySpinUpdate` is that step:
  `some` of the word written, or `none` for a refusal.

  * the four masks, the predicates `expect*` and the transformations `desire*`, one by one;
  * the methods of `RwLockState`; `try_write` makes two updates, `tryWrite` and, after a
    refusal, `tryWriteQueue`, and other threads may step between them;
  * `Update` -- the eleven update sites, so that the machine over the word can name them.
-/
import Mathlib.Data.Nat.Notation
import AtomicSync.Lib.Atomics

namespace AtomicSync.RwLock

/-! ## 1. Masks, predicates, transformations -/

namespace RwLockState

/-- `D::ONE << (D::BITS - 1)` -/
def kWriterActive (w : ℕ) : BitVec w := 1#w <<< (w - 1)

/-- `D::ONE << (D::BITS - 2)` -/
def kWriterQueued (w : ℕ) : BitVec w := 1#w <<< (w - 2)

/-- `D::ONE << (D::BITS - 3)` -/
def kUpgradeActive (w : ℕ) : BitVec w := 1#w <<< (w - 3)

/-- `D::MAX >> 3` -/
def kMaxReaderCount (w : ℕ) : BitVec w := BitVec.allOnes w >>> 3

variable {w : ℕ}

/-- `try_spin_update_`, as the one atomic step it is for the rest of the program. -/
def trySpinUpdate (expect : BitVec w → Bool) (desire : BitVec w → BitVec w) (s : BitVec w) :
    Option (BitVec w) := Atomics.trySpinCompareExchangeWeak expect desire s

def expectWriterActive (s : BitVec w) : Bool := s &&& kWriterActive w == kWriterActive w
def expectWriterInactive (s : BitVec w) : Bool := !expectWriterActive s
def desireWriterActive (s : BitVec w) : BitVec w := s ||| kWriterActive w
def desireWriterInactive (s : BitVec w) : BitVec w := s &&& ~~~kWriterActive w

def expectWriterQueued (s : BitVec w) : Bool := s &&& kWriterQueued w == kWriterQueued w
def expectWriterNotQueued (s : BitVec w) : Bool := !expectWriterQueued s
def desireWriterQueued (s : BitVec w) : BitVec w := s ||| kWriterQueued w
def desireWriterNotQueued (s : BitVec w) : BitVec w := s &&& ~~~kWriterQueued w

def expectUpgradeActive (s : BitVec w) : Bool := s &&& kUpgradeActive w == kUpgradeActive w
def expectUpgradeInactive (s : BitVec w) : Bool := !expectUpgradeActive s
def desireUpgradeInactive (s : BitVec w) : BitVec w := s &&& ~~~kUpgradeActive w
def desireUpgradeActive (s : BitVec w) : BitVec w := s ||| kUpgradeActive w

def getReaderCount (s : BitVec w) : BitVec w := s &&& kMaxReaderCount w
def expectReaderLtMax (s : BitVec w) : Bool := decide (getReaderCount s < kMaxReaderCount w)
def expectReaderGtMin (s : BitVec w) : Bool := decide (getReaderCount s > 0#w)
def desireIncReader (s : BitVec w) : BitVec w := s + 1#w
def desireDecReader (s : BitVec w) : BitVec w := s - 1#w

def desireWriterNotQueuedInactive (s : BitVec w) : BitVec w :=
  let s := desireWriterInactive s
  desireWriterNotQueued s

def expectCanRead (s : BitVec w) : Bool :=
  expectReaderLtMax s && expectWriterNotQueued s && expectWriterInactive s

def expectCanWrite (s : BitVec w) : Bool :=
  getReaderCount s == 0#w && expectWriterInactive s

def expectWriteNotQueuedAndUpgradeInactive (s : BitVec w) : Bool :=
  expectWriterNotQueued s && expectWriterInactive s && expectUpgradeInactive s

def desireUpgradeActiveAndReaderInc (s : BitVec w) : BitVec w :=
  let s := desireUpgradeActive s
  desireIncReader s

def desireUpgradeInactiveAndReaderDec (s : BitVec w) : BitVec w :=
  let s := desireUpgradeInactive s
  desireDecReader s

def desireWriteToRead (s : BitVec w) : BitVec w :=
  let s := desireWriterInactive s
  desireIncReader s

def desireWriteToUpgradable (s : BitVec w) : BitVec w :=
  let s := desireWriterInactive s
  let s := desireUpgradeActive s
  desireIncReader s

def expectCanDowngradeToRead (s : BitVec w) : Bool :=
  expectUpgradeActive s && expectWriterInactive s && decide (getReaderCount s > 0#w)

def expectCanUpgrade (s : BitVec w) : Bool :=
  expectUpgradeActive s && getReaderCount s == 1#w

def desireUpgradableToWrite (s : BitVec w) : BitVec w := desireWriterActive s

/-! ## 2. The methods -/

def onWriterGuardDrop (s : BitVec w) : Option (BitVec w) :=
  trySpinUpdate expectWriterActive desireWriterNotQueuedInactive s

def readerCount (s : BitVec w) : BitVec w := getReaderCount s

def decreaseReaderCount (s : BitVec w) : Option (BitVec w) :=
  trySpinUpdate expectReaderGtMin desireDecReader s

def tryRead (s : BitVec w) : Option (BitVec w) :=
  trySpinUpdate expectCanRead desireIncReader s

/-- The first update of `try_write`. -/
def tryWrite (s : BitVec w) : Option (BitVec w) :=
  trySpinUpdate expectCanWrite desireWriterActive s

/-- The second update of `try_write`, made after the first was refused; its result is
    discarded. -/
def tryWriteQueue (s : BitVec w) : Option (BitVec w) :=
  trySpinUpdate expectWriterNotQueued desireWriterQueued s

def tryUpgradableRead (s : BitVec w) : Option (BitVec w) :=
  trySpinUpdate expectWriteNotQueuedAndUpgradeInactive desireUpgradeActiveAndReaderInc s

def onUpgradableReadDrop (s : BitVec w) : Option (BitVec w) :=
  trySpinUpdate expectUpgradeActive desireUpgradeInactiveAndReaderDec s

def tryDowngradeWriteToRead (s : BitVec w) : Option (BitVec w) :=
  trySpinUpdate expectWriterActive desireWriteToRead s

def tryDowngradeWriteToUpgradable (s : BitVec w) : Option (BitVec w) :=
  trySpinUpdate expectWriterActive desireWriteToUpgradable s

def tryDowngradeUpgradableToRead (s : BitVec w) : Option (BitVec w) :=
  trySpinUpdate expectCanDowngradeToRead desireUpgradeInactive s

def tryUpgradeUpgradableToWrite (s : BitVec w) : Option (BitVec w) :=
  trySpinUpdate expectCanUpgrade desireUpgradableToWrite s

end RwLockState

/-! ## 3. The update sites, by name -/

/-- The updates of the state word, one constructor for each `try_spin_update_` call. -/
inductive Update where
  | writerGuardDrop
  | decreaseReaderCount
  | tryRead
  | tryWrite
  | tryWriteQueue
  | tryUpgradableRead
  | upgradableReadDrop
  | downgradeWriteToRead
  | downgradeWriteToUpgradable
  | downgradeUpgradableToRead
  | upgradeUpgradableToWrite
  deriving DecidableEq, Repr

namespace Update

open RwLockState

variable {w : ℕ}

/-- What the update does to the word: the method it belongs to. -/
def run : Update → BitVec w → Option (BitVec w)
  | writerGuardDrop => onWriterGuardDrop
  | decreaseReaderCount => RwLockState.decreaseReaderCount
  | tryRead => RwLockState.tryRead
  | tryWrite => RwLockState.tryWrite
  | tryWriteQueue => RwLockState.tryWriteQueue
  | tryUpgradableRead => RwLockState.tryUpgradableRead
  | upgradableReadDrop => onUpgradableReadDrop
  | downgradeWriteToRead => tryDowngradeWriteToRead
  | downgradeWriteToUpgradable => tryDowngradeWriteToUpgradable
  | downgradeUpgradableToRead => tryDowngradeUpgradableToRead
  | upgradeUpgradableToWrite => tryUpgradeUpgradableToWrite

end Update

end AtomicSync.RwLock

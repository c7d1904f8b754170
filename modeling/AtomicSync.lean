import AtomicSync.Lib.Run
import AtomicSync.Lib.Simulation
import AtomicSync.Lib.Progress
import AtomicSync.Lib.Population
import AtomicSync.Lib.Endless
import AtomicSync.Lib.Chain
import AtomicSync.Lib.PackedWord
import AtomicSync.Lib.Atomics
import AtomicSync.RwLock.State
import AtomicSync.RwLock.Fields
import AtomicSync.RwLock.Machine
import AtomicSync.RwLock.Ledger
import AtomicSync.RwLock.Conditions
import AtomicSync.RwLock.Bounds
import AtomicSync.RwLock.Counter
import AtomicSync.RwLock.Exclusion
import AtomicSync.RwLock.Reflection
import AtomicSync.RwLock.Refinement
import AtomicSync.RwLock.Reupgrade
import AtomicSync.RwLock.Pinned
import AtomicSync.RwLock.ReaderCount
import AtomicSync.RwLock.Preference
import AtomicSync.RwLock.Queue
import AtomicSync.RwLock.Accesses
import AtomicSync.RwLock.LockFree
import AtomicSync.RwLock.Progress
import AtomicSync.RwLock.Starvation
import AtomicSync.RwLock.Leaks
import AtomicSync.RwLock.Data
import AtomicSync.Mutex.Signal
import AtomicSync.Mutex.Machine
import AtomicSync.Mutex.Serial
import AtomicSync.Mutex.Refinement
import AtomicSync.Mutex.Waiting
import AtomicSync.Mutex.TryLock
import AtomicSync.Mutex.Progress
import AtomicSync.Mutex.Smoke
import AtomicSync.Mutex.SmokeProgress
import AtomicSync.Sequential.Machine
import AtomicSync.Sequential.Guards
import AtomicSync.Sequential.Account
import AtomicSync.Sequential.Insertion
import AtomicSync.Sequential.Refinement
import AtomicSync.Sequential.Chains
import AtomicSync.Sequential.Deadlock

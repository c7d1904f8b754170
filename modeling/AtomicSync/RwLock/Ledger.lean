/-
  File:      AtomicSync/RwLock/Ledger.lean
  Subject:   The guards alive, counted, and what each step does to the counts.

  `s.live ρ` is the number of live guards of role `ρ` over all slots. Each update of the state
  word has a price in guards: `Update.takes` is what its caller gives up in any case,
  `Update.gives` what it is granted. **`step_books`** says once what a step can do: it makes a
  granted update and the counts move by its price, or a refused one and only the given-up guards
  leave, or no update. The invariants of the lock are arithmetic over these four cases:
  `ledger_rule` reduces an invariant of fields and counts to what updates do to them.
-/
import AtomicSync.Lib.Population
import AtomicSync.RwLock.Fields
import AtomicSync.RwLock.Machine

namespace AtomicSync.RwLock

/-- The kinds of guards. -/
inductive Role where
  | reader
  | upgradable
  | writer
  deriving DecidableEq, Repr

variable {w : ℕ} {ι T : Type}

/-! ## 1. The guards in a slot -/

/-- Does the slot hold a live guard of this role? A guard inside an `Upgrade` is alive, and the
    consuming upgrade holds two: the WriterGuard it made and the guard it has yet to drop. -/
def Slot.holds (ρ : Role) : Slot ι → Bool
  | .idle | .calling _ _ | .refused _ | .polling _ => false
  | .reader => decide (ρ = .reader)
  | .upgradable | .upgrade | .upgrading _ | .upgradePolling => decide (ρ = .upgradable)
  | .consuming => decide (ρ ≠ .reader)
  | .writer _ => decide (ρ = .writer)

/-- The number of live guards of a role in a slot. -/
def Slot.weight (ρ : Role) (c : Slot ι) : ℕ := (c.holds ρ).toNat

theorem Slot.weight_pos {ρ : Role} {c : Slot ι} : 0 < c.weight ρ ↔ c.holds ρ = true := by
  unfold Slot.weight
  cases c.holds ρ <;> simp

theorem Slot.weight_of_holds {ρ : Role} {c : Slot ι} (h : c.holds ρ = true) : c.weight ρ = 1 := by
  unfold Slot.weight
  rw [h]
  rfl

/-- The guards an update's caller gives up, whatever the outcome. -/
def Update.takes : Update → Role → ℕ
  | .decreaseReaderCount, .reader => 1
  | .upgradableReadDrop, .upgradable => 1
  | .downgradeUpgradableToRead, .upgradable => 1
  | .writerGuardDrop, .writer => 1
  | .downgradeWriteToRead, .writer => 1
  | .downgradeWriteToUpgradable, .writer => 1
  | _, _ => 0

/-- The guards a granted update yields. -/
def Update.gives : Update → Role → ℕ
  | .tryRead, .reader => 1
  | .tryUpgradableRead, .upgradable => 1
  | .tryWrite, .writer => 1
  | .downgradeWriteToRead, .reader => 1
  | .downgradeWriteToUpgradable, .upgradable => 1
  | .downgradeUpgradableToRead, .reader => 1
  | .upgradeUpgradableToWrite, .writer => 1
  | _, _ => 0

/-- **The price of every row of the step table.** -/
theorem Slot.instr_update_weight {c : Slot ι} {a : Action} {u : Update} {g r : Slot ι}
    (h : c.instr a = some (.update u g r)) (ρ : Role) :
    g.weight ρ + u.takes ρ = c.weight ρ + u.gives ρ ∧ r.weight ρ + u.takes ρ = c.weight ρ := by
  cases c <;> cases a <;> simp only [Slot.instr, reduceCtorEq, Option.some.injEq] at h
  case calling.attempt k m =>
    cases k <;> cases h <;> cases m <;> cases ρ <;> exact ⟨rfl, rfl⟩
  case refused.queue m => cases h; cases m <;> cases ρ <;> exact ⟨rfl, rfl⟩
  all_goals cases h; cases ρ <;> exact ⟨rfl, rfl⟩

/-- A row without an update keeps the slot's guards, or forgets them. -/
theorem Slot.instr_move_weight {c : Slot ι} {a : Action} {c' : Slot ι}
    (h : c.instr a = some (.move c')) :
    (∀ ρ, c'.weight ρ = c.weight ρ) ∨ a = .forget ∧ c' = .idle := by
  cases c <;> cases a <;> simp only [Slot.instr, reduceCtorEq, Option.some.injEq] at h
  case calling.attempt k m => cases k <;> cases h
  case polling.poll k b => cases h; cases b <;> exact Or.inl fun ρ => rfl
  case upgradePolling.poll b => cases h; cases b <;> exact Or.inl fun ρ => rfl
  all_goals first
    | (cases h; exact Or.inl fun ρ => rfl)
    | (cases h; exact Or.inr ⟨rfl, rfl⟩)
    | cases h

/-! ## 2. The counts of a configuration -/

section Live

variable [Fintype ι]

/-- The number of live guards of a role. -/
def Config.live (s : Config w ι T) (ρ : Role) : ℕ := Population.total (Slot.weight ρ) s.slots

theorem live_init (d : T) (ρ : Role) : (init w ι d).live ρ = 0 :=
  Population.total_eq_zero.mpr fun _ => rfl

/-- A slot with a guard counts. -/
theorem live_pos {s : Config w ι T} {i : ι} {ρ : Role} (h : (s.slots i).holds ρ = true) :
    0 < s.live ρ := by
  have := Population.le_total (Slot.weight ρ) s.slots i
  rw [Slot.weight_of_holds h] at this
  exact this

omit [Fintype ι] in
/-- What a slot is known to contain holds what its contents hold. -/
theorem holds_of_slot {s : Config w ι T} {i : ι} {c : Slot ι} (h : s.slots i = c) {ρ : Role}
    (hc : c.holds ρ = true) : (s.slots i).holds ρ = true := by
  rw [h]
  exact hc

theorem exists_of_live_pos {s : Config w ι T} {ρ : Role} (h : 0 < s.live ρ) :
    ∃ i, (s.slots i).holds ρ = true := by
  obtain ⟨i, hi⟩ := Population.exists_of_total_pos h
  exact ⟨i, Slot.weight_pos.mp hi⟩

variable [DecidableEq ι]

/-- Two slots with a guard of one role count two. -/
theorem live_two {s : Config w ι T} {i j : ι} (hij : i ≠ j) {ρ : Role}
    (hi : (s.slots i).holds ρ = true) (hj : (s.slots j).holds ρ = true) : 2 ≤ s.live ρ := by
  have := Population.add_le_total (Slot.weight ρ) s.slots hij
  rw [Slot.weight_of_holds hi, Slot.weight_of_holds hj] at this
  exact this

theorem live_put (s : Config w ι T) (i : ι) (c : Slot ι) (ρ : Role) :
    (s.put i c).live ρ + (s.slots i).weight ρ = s.live ρ + c.weight ρ :=
  Population.total_update (Slot.weight ρ) s.slots i c

/-! ## 3. The books of a step -/

/-- What a step does to the word and to the counts of live guards. -/
inductive Books (s : Config w ι T) (a : Act ι T) (s' : Config w ι T) : Prop where
  /-- the step makes an update and it is granted -/
  | granted (u : Update) (ha : updateAt s a = some u) (hu : u.run s.stat = some s'.stat)
      (hl : ∀ ρ, s'.live ρ + u.takes ρ = s.live ρ + u.gives ρ) (ht : ∀ ρ, u.takes ρ ≤ s.live ρ)
  /-- the step makes an update and it is refused -/
  | refused (u : Update) (ha : updateAt s a = some u) (hu : u.run s.stat = none)
      (hs : s'.stat = s.stat) (hl : ∀ ρ, s'.live ρ + u.takes ρ = s.live ρ)
  /-- the step leaves the word and the guards alone -/
  | silent (ha : updateAt s a = none) (hs : s'.stat = s.stat) (hl : ∀ ρ, s'.live ρ = s.live ρ)
  /-- a guard is forgotten -/
  | forgotten (i : ι) (ha : a = .run i .forget) (hn : updateAt s a = none) (hs : s'.stat = s.stat)
      (hl : ∀ ρ, s'.live ρ + (s.slots i).weight ρ = s.live ρ)

/-- **Every step keeps the books.** -/
theorem step_books {s s' : Config w ι T} {a : Act ι T} (h : step s a = some s') :
    Books s a s' := by
  cases step_cases h with
  | move i b c hi =>
      have ha : updateAt s (.run i b : Act ι T) = none := by simp only [updateAt, hi]
      rcases Slot.instr_move_weight hi with hc | ⟨rfl, rfl⟩
      · refine .silent ha rfl fun ρ => ?_
        have := live_put s i c ρ
        rw [hc ρ] at this
        omega
      · exact .forgotten i rfl ha rfl fun ρ => live_put s i .idle ρ
  | granted i b u g r stat' hi hu =>
      have ha : updateAt s (.run i b : Act ι T) = some u := by simp only [updateAt, hi]
      refine .granted u ha hu (fun ρ => ?_) (fun ρ => ?_)
      · have h1 := (Slot.instr_update_weight hi ρ).1
        have h2 := live_put s i g ρ
        show (s.put i g).live ρ + u.takes ρ = s.live ρ + u.gives ρ
        omega
      · have h1 := (Slot.instr_update_weight hi ρ).2
        have h2 : (s.slots i).weight ρ ≤ s.live ρ := Population.le_total _ s.slots i
        omega
  | refused i b u g r hi hu =>
      have ha : updateAt s (.run i b : Act ι T) = some u := by simp only [updateAt, hi]
      refine .refused u ha hu rfl fun ρ => ?_
      have h1 := (Slot.instr_update_weight hi ρ).2
      have h2 := live_put s i r ρ
      omega
  | lent i j m stat' hi hj hu =>
      refine .granted .upgradeUpgradableToWrite rfl hu (fun ρ => ?_) (fun ρ => Nat.zero_le _)
      have hij : j ≠ i := fun e => by rw [e, hi] at hj; cases hj
      have h1 := live_put s i .upgrade ρ
      have h2 := live_put (s.put i .upgrade) j (.writer (.pinned i)) ρ
      have h3 : (s.put i .upgrade).slots j = .idle := (Function.update_of_ne hij _ _).trans hj
      rw [hi] at h1
      rw [h3] at h2
      show ((s.put i .upgrade).put j (.writer (.pinned i))).live ρ + _ = _
      cases ρ <;> simp [Slot.weight, Slot.holds, Update.takes, Update.gives] at h1 h2 ⊢ <;> omega
  | notLent i j m hi hj hu =>
      refine .refused .upgradeUpgradableToWrite rfl hu rfl fun ρ => ?_
      have h1 := live_put s i (upgradeRefusal m) ρ
      have h2 : (upgradeRefusal m : Slot ι).weight ρ = (s.slots i).weight ρ := by
        rw [hi]
        cases m <;> rfl
      have h3 : Update.upgradeUpgradableToWrite.takes ρ = 0 := by cases ρ <;> rfl
      omega
  | store i o v hi => exact .silent rfl rfl fun ρ => rfl

/-- The books of a step that makes the update `u`. -/
theorem update_books {s s' : Config w ι T} {a : Act ι T} (h : step s a = some s') {u : Update}
    (ha : updateAt s a = some u) :
    u.run s.stat = some s'.stat ∧ (∀ ρ, s'.live ρ + u.takes ρ = s.live ρ + u.gives ρ) ∧
        (∀ ρ, u.takes ρ ≤ s.live ρ) ∨
      u.run s.stat = none ∧ s'.stat = s.stat ∧ ∀ ρ, s'.live ρ + u.takes ρ = s.live ρ := by
  cases step_books h with
  | granted u' ha' hu hl ht =>
      obtain rfl := Option.some.inj (ha'.symm.trans ha)
      exact Or.inl ⟨hu, hl, ht⟩
  | refused u' ha' hu hs hl =>
      obtain rfl := Option.some.inj (ha'.symm.trans ha)
      exact Or.inr ⟨hu, hs, hl⟩
  | silent ha' _ _ => cases ha'.symm.trans ha
  | forgotten i _ ha' _ _ => cases ha'.symm.trans ha

/-- A caller has the guard its update gives up. -/
theorem takes_le {s s' : Config w ι T} {a : Act ι T} (h : step s a = some s') {u : Update}
    (ha : updateAt s a = some u) (ρ : Role) : u.takes ρ ≤ s.live ρ := by
  rcases update_books h ha with ⟨-, -, ht⟩ | ⟨-, -, hl⟩
  · exact ht ρ
  · have := hl ρ
    omega

/-- **The rule for invariants over fields and counts**: it is enough to keep `P` under every
    granted update that fits, every refused one and every forgotten guard. -/
theorem ledger_rule (hw : 8 ≤ w) {s s' : Config w ι T} {a : Act ι T} (h : step s a = some s')
    {P : Fields → (Role → ℕ) → Prop} (hP : P (fields s.stat) s.live)
    (hfit : ∀ u stat', updateAt s a = some u → u.run s.stat = some stat' →
      u.fits (maxReaderCount w) (fields s.stat))
    (hgrant : ∀ u n', updateAt s a = some u → u.admits (maxReaderCount w) (fields s.stat) = true →
      u.fits (maxReaderCount w) (fields s.stat) →
      (∀ ρ, n' ρ + u.takes ρ = s.live ρ + u.gives ρ) → (∀ ρ, u.takes ρ ≤ s.live ρ) →
      P (u.effect (fields s.stat)) n')
    (hrefuse : ∀ u n', updateAt s a = some u →
      u.admits (maxReaderCount w) (fields s.stat) = false →
      (∀ ρ, n' ρ + u.takes ρ = s.live ρ) → P (fields s.stat) n')
    (hforget : ∀ i n', a = .run i .forget → (∀ ρ, n' ρ + (s.slots i).weight ρ = s.live ρ) →
      P (fields s.stat) n') : P (fields s'.stat) s'.live := by
  cases step_books h with
  | granted u ha hu hl ht =>
      have hf := hfit u _ ha hu
      rw [Update.fields_run hw hu hf]
      exact hgrant u _ ha (Update.admits_of_run hw hu) hf hl ht
  | refused u ha hu hs hl =>
      rw [hs]
      exact hrefuse u _ ha (Update.not_admits_of_run hw hu) hl
  | silent ha hs hl =>
      rw [hs, funext hl]
      exact hP
  | forgotten i ha hn hs hl =>
      rw [hs]
      exact hforget i _ ha hl

/-- **The rule for invariants that bound the guards**: fewer guards keep them, so only granted
    updates can break them. -/
theorem ledger_rule_mono (hw : 8 ≤ w) {s s' : Config w ι T} {a : Act ι T}
    (h : step s a = some s') {P : Fields → (Role → ℕ) → Prop} (hP : P (fields s.stat) s.live)
    (hmono : ∀ f n n', P f n → (∀ ρ, n' ρ ≤ n ρ) → P f n')
    (hfit : ∀ u stat', updateAt s a = some u → u.run s.stat = some stat' →
      u.fits (maxReaderCount w) (fields s.stat))
    (hgrant : ∀ u n', updateAt s a = some u → u.admits (maxReaderCount w) (fields s.stat) = true →
      u.fits (maxReaderCount w) (fields s.stat) →
      (∀ ρ, n' ρ + u.takes ρ = s.live ρ + u.gives ρ) → (∀ ρ, u.takes ρ ≤ s.live ρ) →
      P (u.effect (fields s.stat)) n') : P (fields s'.stat) s'.live := by
  refine ledger_rule hw h hP hfit hgrant ?_ ?_
  · intro u n' _ _ hl
    exact hmono _ _ n' hP fun ρ => by have := hl ρ; omega
  · intro i n' _ hl
    exact hmono _ _ n' hP fun ρ => by have := hl ρ; omega

end Live

end AtomicSync.RwLock

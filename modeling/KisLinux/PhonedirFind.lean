import KisLinux.PhonedirDevice

/-!
# Finds without memory

`phonedir_find` goes on when it gets no memory for a copy, so that its list is
short and looks like any other. A null pointer is returned for the list head alone.
-/
namespace KisLinux.Phonedir
open Fs ByteMemory StateRun

/-- A null pointer, or a list with a copy of every record that has the surname. -/
def AllOrError (surname : List UInt8) (k : Kernel) : Prop :=
  ∃ found k', phonedirFind surname k = .ok found k' ∧
    ∀ result, found = some result → result.Perm (matchingRecords surname k.directory)

/-- The bytes that a command at `buf` is going to give to `phonedir_find`. -/
def Device.surnameAt (d : Device) (buf : ℕ) : List UInt8 :=
  slice (blit d.handle.inputBuf (buf + phonedirNameLen) [0]) (buf + 1) phonedirNameLen

/-- What the two callers make of a null pointer. -/
structure NullReported (surname : List UInt8) (k : Kernel) : Prop where
  sysFind : ∀ ptr0 k₀ k₁ k', surnameFromUser ptr0 k₀ = .ok (.ok surname) k₁ →
    downInterruptible k₁ = .ok true k → phonedirFind surname k = .ok none k' →
      sysFind ptr0 k₀ = .ok (.error .enomem) k'
  device : ∀ (d : Device) (buf len : ℕ) k', d.kernel = k → d.handle.inputBuf buf = opFind →
    ¬needBytes opFind + 1 < len → d.surnameAt buf = surname → phonedirFind surname k = .ok none k' →
      ∀ res d', processOperation buf len d = .ok res d' → res = .error .enomem ∧ d'.kernel = k' ∧
        d'.handle.pendingOutput = d.handle.pendingOutput

theorem sysFind_null {surname ptr0 : List UInt8} {k₀ k₁ k k' : Kernel}
    (hsurname : surnameFromUser ptr0 k₀ = .ok (.ok surname) k₁)
    (hlock : downInterruptible k₁ = .ok true k) (hfind : phonedirFind surname k = .ok none k') :
    sysFind ptr0 k₀ = .ok (.error .enomem) k' := by
  unfold sysFind
  rw [bind_of_ok hsurname]
  dsimp only
  rw [bind_of_ok hlock, if_pos rfl, bind_of_ok hfind]
  rfl

/-- What is touched inside of the buffer is written down. -/
theorem access_ok {a : Access} {d d' : Device} (h : access a d = .ok ⟨⟩ d') : d' = d.accessed a := by
  unfold access at h
  split at h
  · exact (EStateM.Result.ok.inj h).2.symm
  · cases h

theorem processSurname_null {d d' : Device} {buf len : ℕ} {k' : Kernel} {res : Except Errno Unit}
    (hfind : phonedirFind (d.surnameAt buf) d.kernel = .ok none k')
    (h : processSurname buf len opFind d = .ok res d') :
    res = .error .enomem ∧ d'.kernel = k' ∧ d'.handle.pendingOutput = d.handle.pendingOutput := by
  unfold processSurname at h
  obtain ⟨u, d₁, haccess, h⟩ := bind_eq_ok.mp h
  obtain rfl := access_ok haccess
  obtain ⟨u, d₂, hcut, h⟩ := bind_eq_ok.mp h
  obtain ⟨-, rfl⟩ := EStateM.Result.ok.inj hcut
  obtain ⟨d₃, d₄, hget, h⟩ := bind_eq_ok.mp h
  obtain ⟨rfl, rfl⟩ := EStateM.Result.ok.inj hget
  rw [if_neg (by decide)] at h
  obtain ⟨found, d₅, hrun, h⟩ := bind_eq_ok.mp h
  obtain ⟨k, hkernel, rfl⟩ := onPart_eq_ok hrun
  obtain ⟨rfl, rfl⟩ := EStateM.Result.ok.inj (hfind.symm.trans hkernel)
  obtain ⟨rfl, rfl⟩ := EStateM.Result.ok.inj h
  exact ⟨rfl, rfl, rfl⟩

theorem nullReported (surname : List UInt8) (k : Kernel) : NullReported surname k where
  sysFind := fun _ _ _ _ => sysFind_null
  device := by
    rintro d buf len k' rfl hop hlen rfl hfind res d' h
    unfold processOperation at h
    obtain ⟨u, d₁, haccess, h⟩ := bind_eq_ok.mp h
    obtain rfl := access_ok haccess
    obtain ⟨d₂, d₃, hget, h⟩ := bind_eq_ok.mp h
    obtain ⟨rfl, rfl⟩ := EStateM.Result.ok.inj hget
    have hop' : (d.accessed ⟨buf, 1, buf + len⟩).handle.inputBuf buf = opFind := hop
    simp only [hop'] at h
    rw [if_neg hlen] at h
    obtain ⟨ran, d₄, hrun, h⟩ := bind_eq_ok.mp h
    obtain ⟨rfl, hkernel, hpending⟩ :=
      processSurname_null (d := d.accessed ⟨buf, 1, buf + len⟩) hfind hrun
    obtain ⟨rfl, rfl⟩ := EStateM.Result.ok.inj h
    exact ⟨rfl, hkernel, hpending⟩

theorem allOrError_iff (surname : List UInt8) (k : Kernel) :
    AllOrError surname k ↔ (k.allocs 0 = true →
      ∀ i < (matchingRecords surname k.directory).length, k.allocs (i + 1) = true) := by
  have hrun := phonedirFind_eq surname k
  by_cases ha : k.allocs 0 = true
  · rw [if_pos ha] at hrun
    constructor
    · rintro ⟨found, k', h, hall⟩ -
      obtain ⟨rfl, -⟩ := EStateM.Result.ok.inj (hrun.symm.trans h)
      have hlen := (hall _ rfl).length_eq
      rw [List.length_reverse] at hlen
      exact copiedRecords_length_eq.mp hlen
    · intro h
      refine ⟨_, _, hrun, fun result hresult => ?_⟩
      obtain rfl := Option.some.inj hresult
      rw [copiedRecords_eq (h ha)]
      exact List.reverse_perm _
  · rw [if_neg ha] at hrun
    refine ⟨fun _ h => absurd h ha, fun _ => ⟨none, _, hrun, fun result hresult => ?_⟩⟩
    cases hresult

/-- A find is all or error exactly when a system with memory for the list head has it
for every copy too; a null pointer is reported by both callers. -/
theorem phonedirFind_allOrError (surname : List UInt8) (k : Kernel) :
    (AllOrError surname k ↔ (k.allocs 0 = true →
      ∀ i < (matchingRecords surname k.directory).length, k.allocs (i + 1) = true)) ∧
      NullReported surname k :=
  ⟨allOrError_iff surname k, nullReported surname k⟩

/-- Two records with one surname, and memory for the list head and the first copy. -/
def twoMatches : Kernel :=
  { calmKernel [shortRecord 97, shortRecord 97] with allocs := fun n => decide (n < 2) }

theorem phonedirFind_allOrError_missing : ¬ ∀ surname k, AllOrError surname k := by
  intro h
  have hallocs := (allOrError_iff (shortName 97) twoMatches).mp (h _ _) rfl 1 (by decide +kernel)
  cases hallocs

end KisLinux.Phonedir

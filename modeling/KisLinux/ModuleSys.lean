import KisLinux.EventRun
import Mathlib.Data.Finset.Insert

/-!
# System calls of a module

`sys.c` calls functions of a module through a descriptor that lies in the module
itself. A call reads the pointer to the descriptor, tests its callback, takes a
reference on the module named in it, runs the callback and puts the reference. A
module can be unloaded between any two of these steps while nobody holds it.
-/
namespace KisLinux.ModuleSys
open EventRun

/-- The three system calls, by their arguments. -/
inductive Syscall
  | ptr
  | ptrUint
  | ptrUintPtr
  deriving DecidableEq, Repr

/-- `loading` modules run their init function, `going` ones their exit function;
`retracted` is an exit function behind `module_sys_retract`. -/
inductive ModuleStage
  | loading
  | live
  | going
  | retracted
  | freed
  deriving DecidableEq, Repr

/-- A module and the `module_sys_descritor` in it; its name also is `mod_name`.
`callbacks` are those that are not null. -/
structure Module (ν : Type) where
  name : ν
  callbacks : Syscall → Bool
  refs : ℕ
  stage : ModuleStage

/-- Where a system call is; `dsc` is the module whose descriptor it has read, `mod`
the one whose reference it took. -/
inductive CallStage
  | entered
  | hasRead (dsc : ℕ)
  | tested (dsc : ℕ)
  | held (dsc mod : ℕ)
  | running (dsc mod : ℕ)
  | ran (mod : ℕ)
  | returned
  deriving DecidableEq, Repr

structure Call where
  kind : Syscall
  stage : CallStage
  deriving DecidableEq, Repr

/-- Modules are named by the order in which they were loaded; `descriptor` is the
one whose descriptor `module_sys_descritor` points to. -/
structure Kernel (ν : Type) where
  modules : List (Module ν)
  descriptor : Option ℕ
  calls : List Call

inductive Event (ν : Type)
  | load (name : ν) (callbacks : Syscall → Bool)
  | publish (m : ℕ)
  | beginUnload (m : ℕ)
  | retract (m : ℕ)
  | free (m : ℕ)
  | enter (kind : Syscall)
  /-- The next step of a system call. -/
  | call (j : ℕ)

variable {ν : Type}

namespace Kernel

def initial : Kernel ν := ⟨[], none, []⟩

def stageOf (s : Kernel ν) (m : ℕ) : Option ModuleStage := s.modules[m]?.map Module.stage

def setStage (s : Kernel ν) (m : ℕ) (stage : ModuleStage) : Kernel ν :=
  { s with modules := s.modules.modify m fun md => { md with stage := stage } }

def setRefs (s : Kernel ν) (m : ℕ) (f : ℕ → ℕ) : Kernel ν :=
  { s with modules := s.modules.modify m fun md => { md with refs := f md.refs } }

def setCall (s : Kernel ν) (j : ℕ) (c : Call) (stage : CallStage) : Kernel ν :=
  { s with calls := s.calls.set j { c with stage := stage } }

variable [DecidableEq ν]

/-- `find_module`. -/
def findModule (s : Kernel ν) (name : ν) : Option ℕ :=
  s.modules.findIdx? fun md => md.stage ≠ .freed ∧ md.name = name

/-- `module_get_by_name`: the module that a reference can be taken on. -/
def moduleGetByName (s : Kernel ν) (name : ν) : Option ℕ :=
  match s.findModule name with
  | none => none
  | some m => if s.stageOf m = some .loading ∨ s.stageOf m = some .live then some m else none

/-- `extspecified_ptr` and its two siblings. -/
def callStep (s : Kernel ν) (j : ℕ) (c : Call) : Option (Kernel ν) :=
  match c.stage with
  | .entered =>
    match s.descriptor with
    | none => some (s.setCall j c .returned)
    | some dsc => some (s.setCall j c (.hasRead dsc))
  | .hasRead dsc =>
    s.modules[dsc]?.map fun md => s.setCall j c (if md.callbacks c.kind then .tested dsc else .returned)
  | .tested dsc =>
    s.modules[dsc]?.map fun md =>
      match s.moduleGetByName md.name with
      | none => s.setCall j c .returned
      | some m => (s.setRefs m (· + 1)).setCall j c (.held dsc m)
  | .held dsc m => some (s.setCall j c (.running dsc m))
  | .running _ m => some (s.setCall j c (.ran m))
  | .ran m => some ((s.setRefs m (· - 1)).setCall j c .returned)
  | .returned => none

/-- A module is loaded when no other one has its name, and unloaded when its
reference count is zero. -/
def step (s : Kernel ν) : Event ν → Option (Kernel ν)
  | .load name callbacks =>
    if s.findModule name = none then
      some { s with modules := s.modules ++ [⟨name, callbacks, 0, .loading⟩] }
    else none
  | .publish m =>
    if s.stageOf m = some .loading then some ({ s with descriptor := some m }.setStage m .live) else none
  | .beginUnload m =>
    if s.stageOf m = some .live ∧ s.modules[m]?.map Module.refs = some 0 then
      some (s.setStage m .going)
    else none
  | .retract m =>
    if s.stageOf m = some .going then some ({ s with descriptor := none }.setStage m .retracted)
    else none
  | .free m => if s.stageOf m = some .retracted then some (s.setStage m .freed) else none
  | .enter kind => some { s with calls := s.calls ++ [⟨kind, .entered⟩] }
  | .call j => s.calls[j]?.bind fun c => s.callStep j c

end Kernel

/-- The module in whose descriptor or code the next step of a call looks. -/
def CallStage.touches : CallStage → Option ℕ
  | .hasRead dsc => some dsc
  | .tested dsc => some dsc
  | .held dsc _ => some dsc
  | .running dsc _ => some dsc
  | _ => none

/-- The event looks into a descriptor, or runs a callback, of a freed module. -/
def UseAfterFree (s : Kernel ν) : Event ν → Prop
  | .call j => (s.calls[j]?.bind fun c => c.stage.touches).bind s.stageOf = some .freed
  | _ => False

instance (s : Kernel ν) : ∀ e, Decidable (UseAfterFree s e)
  | .call j => inferInstanceAs (Decidable ((s.calls[j]?.bind fun c => c.stage.touches).bind s.stageOf =
      some .freed))
  | .load _ _ | .publish _ | .beginUnload _ | .retract _ | .free _ | .enter _ => isFalse id

/-- The call has read the descriptor of `m`, and holds no reference yet. -/
def CallStage.exposed (m : ℕ) : CallStage → Bool
  | .hasRead dsc => dsc = m
  | .tested dsc => dsc = m
  | _ => false

/-- A module is freed when no call is between reading its descriptor and the
answer of `module_get_by_name`. -/
def FreesUnseen (s : Kernel ν) : Event ν → Prop
  | .free m => ∀ c ∈ s.calls, c.stage.exposed m = false
  | _ => True

instance (s : Kernel ν) : ∀ e, Decidable (FreesUnseen s e)
  | .free m => inferInstanceAs (Decidable (∀ c ∈ s.calls, c.stage.exposed m = false))
  | .load _ _ | .publish _ | .beginUnload _ | .retract _ | .call _ | .enter _ => isTrue trivial

/-! ## The invariant -/

/-- The call holds a reference on `m`. -/
def CallStage.holds (m : ℕ) : CallStage → Bool
  | .held _ mod => mod = m
  | .running _ mod => mod = m
  | .ran mod => mod = m
  | _ => false

/-- What a call has in its hands: a descriptor that is still there, or a reference
on the very module whose descriptor it has read. -/
def CallStage.Ok (modules : List (Module ν)) : CallStage → Prop
  | .hasRead dsc => ∃ md, modules[dsc]? = some md ∧ md.stage ≠ .freed
  | .tested dsc => ∃ md, modules[dsc]? = some md ∧ md.stage ≠ .freed
  | .held dsc mod => dsc = mod
  | .running dsc mod => dsc = mod
  | _ => True

structure Sound (s : Kernel ν) : Prop where
  refs : ∀ (m : ℕ) (md : Module ν), s.modules[m]? = some md →
    md.refs = s.calls.countP fun c => c.stage.holds m
  leaving : ∀ (m : ℕ) (md : Module ν), s.modules[m]? = some md → md.stage ≠ .loading →
    md.stage ≠ .live → md.refs = 0
  published : ∀ m, s.descriptor = some m → s.stageOf m = some .live ∨ s.stageOf m = some .going
  unique : ∀ (m m' : ℕ) (md md' : Module ν), s.modules[m]? = some md → s.modules[m']? = some md' →
    md.name = md'.name → md.stage ≠ .freed → md'.stage ≠ .freed → m = m'
  calls : ∀ c ∈ s.calls, c.stage.Ok s.modules
  bound : ∀ c ∈ s.calls, ∀ m, c.stage.holds m = true → m < s.modules.length

theorem initial_sound : Sound (Kernel.initial : Kernel ν) where
  refs := fun m md h => by simp [Kernel.initial] at h
  leaving := fun m md h => by simp [Kernel.initial] at h
  published := fun m h => by simp [Kernel.initial] at h
  unique := fun m m' md md' h => by simp [Kernel.initial] at h
  calls := fun c h => absurd h List.not_mem_nil
  bound := fun c h => absurd h List.not_mem_nil

section Lemmas

variable {s : Kernel ν} {m j : ℕ} {md : Module ν} {c : Call} {st : CallStage}

theorem countP_set_add {α : Type} {p : α → Bool} {l : List α} {j : ℕ} {a b : α} (h : l[j]? = some a) :
    (l.set j b).countP p + (if p a then 1 else 0) = l.countP p + (if p b then 1 else 0) := by
  obtain ⟨hlt, rfl⟩ := List.getElem?_eq_some_iff.mp h
  rw [List.countP_set hlt]
  by_cases hp : p l[j]
  · have hpos : 0 < l.countP p := List.countP_pos_iff.mpr ⟨_, List.getElem_mem hlt, hp⟩
    rw [if_pos hp]
    omega
  · rw [if_neg hp]
    omega

theorem CallStage.Ok.of_modules {modules modules' : List (Module ν)} (h : st.Ok modules)
    (hkeep : ∀ (dsc : ℕ) (md : Module ν), st.exposed dsc = true → modules[dsc]? = some md →
      md.stage ≠ .freed → ∃ md', modules'[dsc]? = some md' ∧ md'.stage ≠ .freed) :
    st.Ok modules' := by
  cases st with
  | hasRead dsc =>
    obtain ⟨md, hmd, hst⟩ := h
    exact hkeep dsc md (by simp [CallStage.exposed]) hmd hst
  | tested dsc =>
    obtain ⟨md, hmd, hst⟩ := h
    exact hkeep dsc md (by simp [CallStage.exposed]) hmd hst
  | _ => exact h

/-- A call that holds what it held goes on. -/
theorem Sound.setCall (h : Sound s) (hc : s.calls[j]? = some c)
    (hholds : ∀ m, st.holds m = c.stage.holds m) (hok : st.Ok s.modules) : Sound (s.setCall j c st) where
  refs := by
    intro m md hmd
    have hcount := countP_set_add (p := fun c => c.stage.holds m) (b := { c with stage := st }) hc
    simp only [hholds] at hcount
    rw [h.refs m md hmd]
    exact (Nat.add_right_cancel hcount).symm
  leaving := h.leaving
  published := h.published
  unique := h.unique
  calls := by
    intro d hd
    rcases List.mem_or_eq_of_mem_set hd with hd | rfl
    · exact h.calls d hd
    · exact hok
  bound := by
    intro d hd m hm
    rcases List.mem_or_eq_of_mem_set hd with hd | rfl
    · exact h.bound d hd m hm
    · exact h.bound c (List.mem_of_getElem? hc) m (by rwa [← hholds])

theorem modify_lookup {α : Type} {l : List α} {f : α → α} {m k : ℕ} {b : α}
    (h : (l.modify m f)[k]? = some b) :
    ∃ a, l[k]? = some a ∧ b = if m = k then f a else a := by
  rw [List.getElem?_modify, Option.map_eq_map, Option.map_eq_some_iff] at h
  obtain ⟨a, ha, rfl⟩ := h
  exact ⟨a, ha, rfl⟩

theorem lookup_modify {α : Type} {l : List α} {f : α → α} {m k : ℕ} {a : α} (h : l[k]? = some a) :
    (l.modify m f)[k]? = some (if m = k then f a else a) := by
  rw [List.getElem?_modify, h]
  rfl

/-- A module that was not freed enters another stage. -/
theorem Sound.setStage {stage : ModuleStage} (descriptor : Option ℕ) (h : Sound s)
    (hmd : s.modules[m]? = some md) (hold : md.stage ≠ .freed)
    (hrefs : stage ≠ .loading → stage ≠ .live → md.refs = 0)
    (hfree : stage = .freed → ∀ c ∈ s.calls, c.stage.exposed m = false)
    (hdescriptor : ∀ k, descriptor = some k →
      k ≠ m ∧ s.descriptor = some k ∨ k = m ∧ (stage = .live ∨ stage = .going)) :
    Sound ({ s with descriptor := descriptor }.setStage m stage) where
  refs := by
    intro k md' hmd'
    obtain ⟨md₀, hmd₀, rfl⟩ := modify_lookup hmd'
    rw [apply_ite Module.refs, ite_self]
    exact h.refs k md₀ hmd₀
  leaving := by
    intro k md' hmd'
    obtain ⟨md₀, hmd₀, rfl⟩ := modify_lookup hmd'
    split
    · next hk =>
      subst hk
      obtain rfl := Option.some.inj (hmd.symm.trans hmd₀)
      exact hrefs
    · exact h.leaving k md₀ hmd₀
  published := by
    intro k hk
    rcases hdescriptor k hk with ⟨hne, hk⟩ | ⟨rfl, hstage⟩
    · have hpub := h.published k hk
      simp only [Kernel.stageOf, Kernel.setStage, List.getElem?_modify, Ne.symm hne, if_false] at hpub ⊢
      simpa using hpub
    · simp only [Kernel.stageOf, Kernel.setStage, lookup_modify hmd, if_true, Option.map_some]
      rcases hstage with rfl | rfl <;> simp
  unique := by
    intro k k' md₁ md₂ h₁ h₂ hname hst₁ hst₂
    obtain ⟨a, ha, rfl⟩ := modify_lookup h₁
    obtain ⟨b, hb, rfl⟩ := modify_lookup h₂
    have hkept : ∀ {k a}, s.modules[k]? = some a →
        (if m = k then ({ a with stage := stage } : Module ν) else a).stage ≠ .freed →
        a.stage ≠ .freed := by
      intro k a ha hst
      by_cases hk : m = k
      · subst hk
        obtain rfl := Option.some.inj (hmd.symm.trans ha)
        exact hold
      · rwa [if_neg hk] at hst
    refine h.unique k k' a b ha hb ?_ (hkept ha hst₁) (hkept hb hst₂)
    rwa [apply_ite Module.name, ite_self, apply_ite Module.name, ite_self] at hname
  calls := by
    intro c hc
    refine (h.calls c hc).of_modules fun dsc md' hexposed hmd' hst => ?_
    refine ⟨_, lookup_modify hmd', ?_⟩
    by_cases hk : m = dsc
    · subst hk
      rw [if_pos rfl]
      rintro rfl
      rw [hfree rfl c hc] at hexposed
      cases hexposed
    · rwa [if_neg hk]
  bound := by
    intro c hc k hk
    have hlt := h.bound c hc k hk
    rwa [Kernel.setStage, List.length_modify]

theorem Sound.enter (h : Sound s) (kind : Syscall) :
    Sound { s with calls := s.calls ++ [⟨kind, .entered⟩] } where
  refs := by
    intro m md hmd
    rw [h.refs m md hmd, List.countP_append]
    rfl
  leaving := h.leaving
  published := h.published
  unique := h.unique
  calls := by
    intro c hc
    rcases List.mem_append.mp hc with hc | hc
    · exact h.calls c hc
    · obtain rfl := List.mem_singleton.mp hc
      trivial
  bound := by
    intro c hc m hm
    rcases List.mem_append.mp hc with hc | hc
    · exact h.bound c hc m hm
    · obtain rfl := List.mem_singleton.mp hc
      cases hm

/-- A call goes on, and the reference count of `m` with it. -/
theorem Sound.setRefs {f : ℕ → ℕ} (h : Sound s) (hc : s.calls[j]? = some c)
    (hm : m < s.modules.length)
    (hf : ∀ md, s.modules[m]? = some md →
      f md.refs + (if c.stage.holds m then 1 else 0) = md.refs + (if st.holds m then 1 else 0))
    (hother : ∀ k, k ≠ m → c.stage.holds k = st.holds k)
    (hleaving : ∀ md, s.modules[m]? = some md → md.stage ≠ .loading → md.stage ≠ .live →
      f md.refs = 0)
    (hok : st.Ok s.modules) : Sound ((s.setRefs m f).setCall j c st) where
  refs := by
    intro k md' hmd'
    obtain ⟨md, hmd, rfl⟩ := modify_lookup hmd'
    have hcount := countP_set_add (p := fun c => c.stage.holds k) (b := { c with stage := st }) hc
    have hold := h.refs k md hmd
    refine Nat.add_right_cancel (m := if c.stage.holds k then 1 else 0) (Eq.trans ?_ hcount.symm)
    by_cases hk : m = k
    · subst hk
      rw [if_pos rfl, ← hold]
      exact hf md hmd
    · rw [if_neg hk, hold, hother k (Ne.symm hk)]
  leaving := by
    intro k md' hmd'
    obtain ⟨md, hmd, rfl⟩ := modify_lookup hmd'
    by_cases hk : m = k
    · subst hk
      rw [if_pos rfl]
      exact hleaving md hmd
    · rw [if_neg hk]
      exact h.leaving k md hmd
  published := by
    intro k hk
    have hpub := h.published k hk
    have hstage : ((s.setRefs m f).setCall j c st).stageOf k = s.stageOf k := by
      simp only [Kernel.stageOf, Kernel.setRefs, Kernel.setCall, List.getElem?_modify]
      cases s.modules[k]? with
      | none => rfl
      | some md => split <;> rfl
    rwa [hstage]
  unique := by
    intro k k' md₁ md₂ h₁ h₂ hname hst₁ hst₂
    obtain ⟨a, ha, rfl⟩ := modify_lookup h₁
    obtain ⟨b, hb, rfl⟩ := modify_lookup h₂
    simp only [apply_ite Module.name, apply_ite Module.stage, ite_self] at hname hst₁ hst₂
    exact h.unique k k' a b ha hb hname hst₁ hst₂
  calls := by
    have hkeep : ∀ (dsc : ℕ) (md : Module ν), s.modules[dsc]? = some md → md.stage ≠ .freed →
        ∃ md', ((s.setRefs m f).setCall j c st).modules[dsc]? = some md' ∧ md'.stage ≠ .freed := by
      intro dsc md hmd hst
      refine ⟨_, lookup_modify hmd, ?_⟩
      rwa [apply_ite Module.stage, ite_self]
    intro d hd
    rcases List.mem_or_eq_of_mem_set hd with hd | rfl
    · exact (h.calls d hd).of_modules fun dsc md _ => hkeep dsc md
    · exact hok.of_modules fun dsc md _ => hkeep dsc md
  bound := by
    intro d hd k hk
    have hlt : k < s.modules.length := by
      rcases List.mem_or_eq_of_mem_set hd with hd | rfl
      · exact h.bound d hd k hk
      · by_cases hkm : k = m
        · exact hkm ▸ hm
        · exact h.bound c (List.mem_of_getElem? hc) k (by rwa [hother k hkm])
    simpa [Kernel.setRefs, Kernel.setCall] using hlt

theorem stageOf_some {stage : ModuleStage} (h : s.stageOf m = some stage) :
    ∃ md, s.modules[m]? = some md ∧ md.stage = stage := Option.map_eq_some_iff.mp h

/-- A call never looks into a module that it could have lost. -/
theorem Sound.no_useAfterFree {e : Event ν} (h : Sound s) : ¬ UseAfterFree s e := by
  cases e with
  | call j =>
    intro huse
    obtain ⟨dsc, hdsc, hfreed⟩ := Option.bind_eq_some_iff.mp huse
    obtain ⟨c, hc, htouches⟩ := Option.bind_eq_some_iff.mp hdsc
    obtain ⟨md, hmd, hst⟩ := stageOf_some hfreed
    have hok := h.calls c (List.mem_of_getElem? hc)
    have hunseen : ¬ ∃ md', s.modules[dsc]? = some md' ∧ md'.stage ≠ .freed := by
      rintro ⟨md', hmd', hst'⟩
      obtain rfl := Option.some.inj (hmd.symm.trans hmd')
      exact hst' hst
    have hunheld : ¬ c.stage.holds dsc = true := by
      intro hholds
      have hrefs := h.refs dsc md hmd
      rw [h.leaving dsc md hmd (by simp [hst]) (by simp [hst])] at hrefs
      exact absurd hrefs.symm (List.countP_pos_iff.mpr ⟨c, List.mem_of_getElem? hc, hholds⟩).ne'
    cases hstage : c.stage <;> rw [hstage] at hok htouches hunheld <;> cases htouches
    · exact hunseen hok
    · exact hunseen hok
    · exact hunheld (by simpa [CallStage.holds] using Eq.symm hok)
    · exact hunheld (by simpa [CallStage.holds] using Eq.symm hok)
  | _ => exact id

variable [DecidableEq ν]

/-- `find_module` only finds the module that is there under the name. -/
theorem findModule_some {name : ν} {k : ℕ} (h : s.findModule name = some k) :
    ∃ md, s.modules[k]? = some md ∧ md.stage ≠ .freed ∧ md.name = name := by
  obtain ⟨hlt, hp, -⟩ := List.findIdx?_eq_some_iff_getElem.mp h
  refine ⟨_, List.getElem?_eq_getElem hlt, ?_⟩
  simpa using hp

theorem findModule_none {name : ν} (h : s.findModule name = none) (hmd : s.modules[m]? = some md)
    (hname : md.name = name) : md.stage = .freed := by
  have hall := List.findIdx?_eq_none_iff.mp h md (List.mem_of_getElem? hmd)
  by_contra hst
  simp [hst, hname] at hall

theorem append_lookup {α : Type} {l : List α} {a b : α} {k : ℕ} (h : (l ++ [a])[k]? = some b) :
    l[k]? = some b ∨ k = l.length ∧ b = a := by
  rcases Nat.lt_or_ge k l.length with hlt | hge
  · rw [List.getElem?_append_left hlt] at h
    exact Or.inl h
  · have hk := (List.getElem?_eq_some_iff.mp h).1
    rw [List.length_append, List.length_singleton] at hk
    obtain rfl : k = l.length := by omega
    rw [List.getElem?_concat_length] at h
    exact Or.inr ⟨rfl, (Option.some.inj h).symm⟩

theorem lookup_append {α : Type} {l : List α} {a b : α} {k : ℕ} (h : l[k]? = some b) :
    (l ++ [a])[k]? = some b := by
  rwa [List.getElem?_append_left (List.getElem?_eq_some_iff.mp h).1]

theorem Sound.load {name : ν} {callbacks : Syscall → Bool} (h : Sound s)
    (hnew : s.findModule name = none) :
    Sound { s with modules := s.modules ++ [⟨name, callbacks, 0, .loading⟩] } where
  refs := by
    intro k md hmd
    rcases append_lookup hmd with hmd | ⟨rfl, rfl⟩
    · exact h.refs k md hmd
    · refine (List.countP_eq_zero.mpr fun c hc hholds => ?_).symm
      exact absurd (h.bound c hc _ hholds) (Nat.lt_irrefl _)
  leaving := by
    intro k md hmd
    rcases append_lookup hmd with hmd | ⟨rfl, rfl⟩
    · exact h.leaving k md hmd
    · exact fun _ _ => rfl
  published := by
    intro k hk
    have hpub := h.published k hk
    simp only [Kernel.stageOf] at hpub ⊢
    cases hmd : s.modules[k]? with
    | none => simp [hmd] at hpub
    | some md =>
      rw [hmd] at hpub
      rwa [lookup_append hmd]
  unique := by
    intro k k' md₁ md₂ h₁ h₂ hname hst₁ hst₂
    rcases append_lookup h₁ with h₁ | ⟨rfl, rfl⟩ <;> rcases append_lookup h₂ with h₂ | ⟨rfl, rfl⟩
    · exact h.unique k k' md₁ md₂ h₁ h₂ hname hst₁ hst₂
    · exact absurd (findModule_none hnew h₁ hname) hst₁
    · exact absurd (findModule_none hnew h₂ hname.symm) hst₂
    · rfl
  calls := fun c hc => (h.calls c hc).of_modules fun dsc md _ hmd hst => ⟨md, lookup_append hmd, hst⟩
  bound := by
    intro c hc m hm
    have hlt := h.bound c hc m hm
    rw [List.length_append]
    omega

/-- What `module_get_by_name` gives for a descriptor that is still there is the
module that the descriptor lies in. -/
theorem moduleGetByName_self {k : ℕ} (h : Sound s) (hmd : s.modules[m]? = some md)
    (hst : md.stage ≠ .freed) (hget : s.moduleGetByName md.name = some k) :
    k = m ∧ (md.stage = .loading ∨ md.stage = .live) := by
  unfold Kernel.moduleGetByName at hget
  cases hfind : s.findModule md.name with
  | none =>
    rw [hfind] at hget
    cases hget
  | some i =>
    obtain ⟨md', hmd', hst', hname⟩ := findModule_some hfind
    obtain rfl : i = m := h.unique i m md' md hmd' hmd hname hst' hst
    rw [hfind] at hget
    simp only [Option.ite_none_right_eq_some, Option.some.injEq] at hget
    obtain ⟨hstage, rfl⟩ := hget
    refine ⟨rfl, ?_⟩
    simpa [Kernel.stageOf, hmd] using hstage

/-- The next step of a call keeps the invariant. -/
theorem Sound.callStep {t : Kernel ν} (h : Sound s) (hc : s.calls[j]? = some c)
    (hstep : s.callStep j c = some t) : Sound t := by
  have hok := h.calls c (List.mem_of_getElem? hc)
  unfold Kernel.callStep at hstep
  cases hst : c.stage with
  | entered =>
    rw [hst] at hstep
    cases hdsc : s.descriptor with
    | none =>
      rw [hdsc] at hstep
      obtain rfl := Option.some.inj hstep
      exact h.setCall hc (fun m => by rw [hst]; rfl) trivial
    | some dsc =>
      rw [hdsc] at hstep
      obtain rfl := Option.some.inj hstep
      refine h.setCall hc (fun m => by rw [hst]; rfl) ?_
      -- a published descriptor is still there
      have hpub := h.published dsc hdsc
      cases hmd : s.modules[dsc]? with
      | none => simp [Kernel.stageOf, hmd] at hpub
      | some md =>
        refine ⟨md, hmd, fun hfreed => ?_⟩
        simp [Kernel.stageOf, hmd, hfreed] at hpub
  | hasRead dsc =>
    rw [hst] at hstep hok
    obtain ⟨md, hmd, rfl⟩ := Option.map_eq_some_iff.mp hstep
    split
    · exact h.setCall hc (fun m => by rw [hst]; rfl) hok
    · exact h.setCall hc (fun m => by rw [hst]; rfl) trivial
  | tested dsc =>
    rw [hst] at hstep hok
    obtain ⟨md, hmd, hlive⟩ := hok
    obtain ⟨md', hmd', rfl⟩ := Option.map_eq_some_iff.mp hstep
    obtain rfl := Option.some.inj (hmd.symm.trans hmd')
    split
    · exact h.setCall hc (fun m => by rw [hst]; rfl) trivial
    · next k hget =>
      obtain ⟨rfl, hstage⟩ := moduleGetByName_self h hmd hlive hget
      refine h.setRefs hc (List.getElem?_eq_some_iff.mp hmd).1 (fun md' hmd' => ?_) (fun i hi => ?_)
        (fun md' hmd' hl hv => ?_) rfl
      · simp [hst, CallStage.holds]
      · simp [hst, CallStage.holds, Ne.symm hi]
      · obtain rfl := Option.some.inj (hmd.symm.trans hmd')
        rcases hstage with hstage | hstage
        · exact absurd hstage hl
        · exact absurd hstage hv
  | held dsc m =>
    rw [hst] at hstep hok
    obtain rfl := Option.some.inj hstep
    exact h.setCall hc (fun i => by rw [hst]; rfl) hok
  | running dsc m =>
    rw [hst] at hstep
    obtain rfl := Option.some.inj hstep
    exact h.setCall hc (fun i => by rw [hst]; rfl) trivial
  | ran m =>
    rw [hst] at hstep
    obtain rfl := Option.some.inj hstep
    have hholds : c.stage.holds m = true := by simp [hst, CallStage.holds]
    have hpos : ∀ md, s.modules[m]? = some md → 0 < md.refs := fun md hmd => by
      rw [h.refs m md hmd]
      exact List.countP_pos_iff.mpr ⟨c, List.mem_of_getElem? hc, hholds⟩
    refine h.setRefs hc (h.bound c (List.mem_of_getElem? hc) m hholds) (fun md hmd => ?_)
      (fun i hi => ?_) (fun md hmd hl hv => ?_) trivial
    · rw [if_pos hholds, if_neg (by simp [CallStage.holds])]
      exact Nat.sub_add_cancel (hpos md hmd)
    · simp [hst, CallStage.holds, Ne.symm hi]
    · rw [h.leaving m md hmd hl hv]
  | returned =>
    rw [hst] at hstep
    cases hstep

theorem Sound.step {t : Kernel ν} {e : Event ν} (h : Sound s) (he : FreesUnseen s e)
    (hstep : s.step e = some t) : Sound t := by
  cases e with
  | load name callbacks =>
    simp only [Kernel.step, Option.ite_none_right_eq_some, Option.some.injEq] at hstep
    obtain ⟨hnew, rfl⟩ := hstep
    exact h.load hnew
  | publish m =>
    simp only [Kernel.step, Option.ite_none_right_eq_some, Option.some.injEq] at hstep
    obtain ⟨hstage, rfl⟩ := hstep
    obtain ⟨md, hmd, hst⟩ := stageOf_some hstage
    exact h.setStage _ hmd (by simp [hst]) (fun _ hv => absurd rfl hv) (fun hf => by cases hf)
      fun k hk => Or.inr ⟨(Option.some.inj hk).symm, Or.inl rfl⟩
  | beginUnload m =>
    simp only [Kernel.step, Option.ite_none_right_eq_some, Option.some.injEq] at hstep
    obtain ⟨⟨hstage, hrefs⟩, rfl⟩ := hstep
    obtain ⟨md, hmd, hst⟩ := stageOf_some hstage
    refine h.setStage s.descriptor hmd (by simp [hst])
      (fun _ _ => by simpa [hmd] using hrefs) (fun hf => by cases hf) fun k hk => ?_
    by_cases hkm : k = m
    · exact Or.inr ⟨hkm, Or.inr rfl⟩
    · exact Or.inl ⟨hkm, hk⟩
  | retract m =>
    simp only [Kernel.step, Option.ite_none_right_eq_some, Option.some.injEq] at hstep
    obtain ⟨hstage, rfl⟩ := hstep
    obtain ⟨md, hmd, hst⟩ := stageOf_some hstage
    exact h.setStage _ hmd (by simp [hst]) (fun _ _ => h.leaving m md hmd (by simp [hst]) (by simp [hst]))
      (fun hf => by cases hf) fun k hk => by cases hk
  | free m =>
    simp only [Kernel.step, Option.ite_none_right_eq_some, Option.some.injEq] at hstep
    obtain ⟨hstage, rfl⟩ := hstep
    obtain ⟨md, hmd, hst⟩ := stageOf_some hstage
    refine h.setStage s.descriptor hmd (by simp [hst])
      (fun _ _ => h.leaving m md hmd (by simp [hst]) (by simp [hst])) (fun _ => he) fun k hk => ?_
    refine Or.inl ⟨?_, hk⟩
    rintro rfl
    rcases h.published k hk with hpub | hpub <;> rw [hstage] at hpub <;> cases hpub
  | enter kind =>
    obtain rfl := Option.some.inj hstep
    exact h.enter kind
  | call j =>
    obtain ⟨c, hc, hcall⟩ := Option.bind_eq_some_iff.mp hstep
    exact h.callStep hc hcall

/-- The condition is exact: a call that the module is freed under looks into it next. -/
theorem useAfterFree_of_free {t : Kernel ν} (hc : s.calls[j]? = some c)
    (hexposed : c.stage.exposed m = true) (hstep : s.step (.free m) = some t) :
    UseAfterFree t (.call j) := by
  simp only [Kernel.step, Option.ite_none_right_eq_some, Option.some.injEq] at hstep
  obtain ⟨hstage, rfl⟩ := hstep
  obtain ⟨md, hmd, -⟩ := stageOf_some hstage
  have hfreed : (s.setStage m .freed).stageOf m = some .freed := by
    rw [Kernel.stageOf, Kernel.setStage, lookup_modify hmd]
    simp
  have htouches : c.stage.touches = some m := by
    cases hst : c.stage <;> rw [hst] at hexposed <;> simp [CallStage.exposed] at hexposed
    · exact congrArg some hexposed
    · exact congrArg some hexposed
  have hcalls : (s.setStage m .freed).calls[j]? = some c := hc
  rw [UseAfterFree, hcalls, Option.bind_some, htouches, Option.bind_some, hfreed]

/-- Where modules are only freed unseen, no call uses one that was freed. -/
theorem descriptor_lifetime {es : List (Event ν)}
    (h : Throughout Kernel.step FreesUnseen (Kernel.initial : Kernel ν) es) :
    Throughout Kernel.step (fun s e => ¬ UseAfterFree s e) (Kernel.initial : Kernel ν) es :=
  throughout_of_invariant (fun _ _ _ hs he hstep => hs.step he hstep)
    (fun _ _ hs _ => hs.no_useAfterFree) initial_sound h

end Lemmas

/-- The module `0` is loaded, and a call reads its descriptor. -/
def readDescriptor : List (Event ℕ) :=
  [.load 0 fun _ => true, .publish 0, .enter .ptr, .call 0]

def unload : List (Event ℕ) := [.beginUnload 0, .retract 0, .free 0]

/-- The call returns before the module is unloaded. -/
theorem descriptor_lifetime_returned : Throughout Kernel.step (fun s e => ¬ UseAfterFree s e)
    Kernel.initial (readDescriptor ++ List.replicate 5 (.call 0) ++ unload) :=
  descriptor_lifetime (by decide)

/-- The module is unloaded before the call tests its callback. -/
theorem descriptor_lifetime_counterexample :
    ¬ ∀ es : List (Event ℕ), Throughout Kernel.step (fun s e => ¬ UseAfterFree s e) Kernel.initial es := by
  intro hclaim
  have hlost := hclaim (readDescriptor ++ unload ++ [.call 0])
  revert hlost
  decide

end KisLinux.ModuleSys

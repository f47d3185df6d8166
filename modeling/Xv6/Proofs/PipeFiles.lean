import Xv6.Kernel.Process
import Xv6.Proofs.Memory
/-!
# References to the ends of pipes

Every open file is counted, each end of a pipe is one open file, and a pipe has
its page as long as one of its ends is open.
-/

namespace Xv6.Kernel

open Xv6.Lib Function

variable {c : Fin NFILE → Nat} {P : Finset Nat} {f : Fin NFILE}

def Ends.isOpen (x : Ends) (writable : Bool) : Bool :=
  if writable = true then x.writeopen else x.readopen

structure PipeFiles (ft : Fin NFILE → PipeFile) (pp : Nat → Ends) (c : Fin NFILE → Nat)
    (P : Finset Nat) : Prop where
  count : ∀ f, (ft f).ref = c f
  kind : ∀ f, (ft f).kind = .none ↔ c f = 0
  unique : ∀ f f' pi w, (ft f).kind = .pipe pi w → (ft f').kind = .pipe pi w → f = f'
  opened : ∀ pi, pi ∈ P ↔ ∃ f w, (ft f).kind = .pipe pi w
  ends : ∀ pi ∈ P, ∀ w, (pp pi).isOpen w = true ↔ ∃ f, (ft f).kind = .pipe pi w

def SameKinds (ft ft' : Fin NFILE → PipeFile) (c : Fin NFILE → Nat) : Prop :=
  ∀ f, 0 < c f → (ft' f).kind = (ft f).kind

namespace PipeFiles

variable {ft : Fin NFILE → PipeFile} {pp : Nat → Ends} {f0 f1 : Fin NFILE} {pi : Nat} {w : Bool}

section

variable (h : PipeFiles ft pp c P)
include h

theorem blank (hc : c f = 0) : ft f = ⟨.none, 0⟩ := by
  have hkind := (h.kind f).mpr hc
  have href := h.count f
  rw [hc] at href
  cases hx : ft f with
  | mk kind ref =>
    rw [hx] at hkind href
    cases hkind
    cases href
    rfl

theorem recount (hc : 0 < c f) {n : Nat} (hn : 0 < n) :
    PipeFiles (update ft f ⟨(ft f).kind, n⟩) pp (update c f n) P := by
  have hkind : ∀ f', (update ft f ⟨(ft f).kind, (n : Int)⟩ f').kind = (ft f').kind := by
    intro f'
    by_cases hf : f' = f
    · rw [hf, update_self]
    · rw [update_of_ne hf]
  refine ⟨?_, ?_, ?_, ?_, ?_⟩
  · intro f'
    by_cases hf : f' = f
    · rw [hf, update_self, update_self]
    · rw [update_of_ne hf, update_of_ne hf]
      exact h.count f'
  · intro f'
    rw [hkind, h.kind]
    by_cases hf : f' = f
    · rw [hf, update_self]
      omega
    · rw [update_of_ne hf]
  · intro f' f'' pi w h' h''
    rw [hkind] at h' h''
    exact h.unique f' f'' pi w h' h''
  · intro pi
    simp only [hkind]
    exact h.opened pi
  · intro pi hpi w
    simp only [hkind]
    exact h.ends pi hpi w

theorem closed (hc : c f = 1) (hf : (ft f).kind = .pipe pi w) :
    PipeFiles (update ft f ⟨.none, 0⟩) (update pp pi ((pp pi).close w))
      (update c f 0)
      (if ((pp pi).close w).readopen = false ∧ ((pp pi).close w).writeopen = false then P.erase pi
        else P) := by
  have hpi : pi ∈ P := (h.opened pi).mpr ⟨f, w, hf⟩
  -- the files that are left
  have hleft : ∀ f' pi' w', (update ft f ⟨.none, 0⟩ f').kind = .pipe pi' w' ↔
      f' ≠ f ∧ (ft f').kind = .pipe pi' w' := by
    intro f' pi' w'
    by_cases hff : f' = f
    · rw [hff, update_self]
      constructor
      · intro hbad
        cases hbad
      · rintro ⟨hne, _⟩
        exact absurd rfl hne
    · rw [update_of_ne hff]
      exact ⟨fun hk => ⟨hff, hk⟩, fun hk => hk.2⟩
  have hsame : ((pp pi).close w).isOpen w = false := by
    cases w <;> rfl
  have hother : ((pp pi).close w).isOpen (!w) = (pp pi).isOpen (!w) := by
    unfold Ends.close Ends.isOpen
    cases w <;> rfl
  have hboth : (((pp pi).close w).readopen = false ∧ ((pp pi).close w).writeopen = false) ↔
      (pp pi).isOpen (!w) = false := by
    unfold Ends.close Ends.isOpen
    cases w <;> simp
  -- an end of `pi` that is left is the other end
  have hend : ∀ f' w', f' ≠ f → (ft f').kind = .pipe pi w' → w' = !w := by
    intro f' w' hne hk
    by_contra hw
    have hww : w' = w := by
      cases w <;> cases w' <;> simp_all
    rw [hww] at hk
    exact hne (h.unique f' f pi w hk hf)
  refine ⟨?_, ?_, ?_, ?_, ?_⟩
  · intro f'
    by_cases hff : f' = f
    · rw [hff, update_self, update_self]
      rfl
    · rw [update_of_ne hff, update_of_ne hff]
      exact h.count f'
  · intro f'
    by_cases hff : f' = f
    · rw [hff, update_self, update_self]
      simp
    · rw [update_of_ne hff, update_of_ne hff]
      exact h.kind f'
  · intro f' f'' pi' w' h' h''
    exact h.unique f' f'' pi' w' ((hleft f' pi' w').mp h').2 ((hleft f'' pi' w').mp h'').2
  · intro pi'
    simp only [hleft]
    split
    · rename_i hclosed
      rw [Finset.mem_erase, h.opened]
      constructor
      · rintro ⟨hne, f', w', hk⟩
        refine ⟨f', w', ?_, hk⟩
        rintro rfl
        rw [hf] at hk
        cases hk
        exact hne rfl
      rintro ⟨f', w', hff, hk⟩
      refine ⟨?_, f', w', hk⟩
      rintro rfl
      have hw' := hend f' w' hff hk
      rw [hw'] at hk
      have hopen := (h.ends pi' hpi (!w)).mpr ⟨f', hk⟩
      rw [hboth.mp hclosed] at hopen
      cases hopen
    · rename_i hclosed
      rw [h.opened]
      constructor
      · rintro ⟨f', w', hk⟩
        by_cases hff : f' = f
        · rw [hff, hf] at hk
          cases hk
          have hopen : (pp pi).isOpen (!w) = true := by
            by_contra hno
            exact hclosed (hboth.mpr (Bool.eq_false_iff.mpr hno))
          obtain ⟨f'', hk''⟩ := (h.ends pi hpi (!w)).mp hopen
          refine ⟨f'', !w, ?_, hk''⟩
          rintro rfl
          rw [hf] at hk''
          cases w <;> cases hk''
        · exact ⟨f', w', hff, hk⟩
      · rintro ⟨f', w', _, hk⟩
        exact ⟨f', w', hk⟩
  · intro pi' hpi' w'
    have hin : pi' ∈ P := by
      split at hpi'
      · exact Finset.mem_of_mem_erase hpi'
      · exact hpi'
    simp only [hleft]
    rcases eq_or_ne pi' pi with rfl | hpp
    · rw [update_self]
      by_cases hw : w' = w
      · rw [hw, hsame]
        constructor
        · intro hbad
          cases hbad
        · rintro ⟨f', hff, hk⟩
          exact absurd (h.unique f' f pi' w hk hf) hff
      have hw' : w' = !w := by
        cases w <;> cases w' <;> simp_all
      rw [hw', hother, h.ends pi' hin]
      constructor
      · rintro ⟨f', hk⟩
        refine ⟨f', ?_, hk⟩
        rintro rfl
        rw [hf] at hk
        cases w <;> cases hk
      · rintro ⟨f', _, hk⟩
        exact ⟨f', hk⟩
    · rw [update_of_ne hpp, h.ends pi' hin]
      constructor
      · rintro ⟨f', hk⟩
        refine ⟨f', ?_, hk⟩
        rintro rfl
        rw [hf] at hk
        cases hk
        exact hpp rfl
      · rintro ⟨f', _, hk⟩
        exact ⟨f', hk⟩

theorem piped (h₀ : c f0 = 0) (h1 : c f1 = 0) (hne : f1 ≠ f0)
    (hpi : pi ∉ P) : PipeFiles (update (update ft f0 ⟨.pipe pi false, 1⟩) f1 ⟨.pipe pi true, 1⟩)
      (update pp pi ⟨true, true⟩) (update (update c f0 1) f1 1)
      (insert pi P) := by
  have hold : ∀ f w, (ft f).kind ≠ .pipe pi w := fun f w hk => hpi ((h.opened pi).mpr ⟨f, w, hk⟩)
  have hkind : ∀ f pi' w, (update (update ft f0 ⟨.pipe pi false, 1⟩) f1
      ⟨.pipe pi true, 1⟩ f).kind = .pipe pi' w ↔
      (f = f0 ∧ pi' = pi ∧ w = false) ∨ (f = f1 ∧ pi' = pi ∧ w = true) ∨
        (f ≠ f0 ∧ f ≠ f1 ∧ (ft f).kind = .pipe pi' w) := by
    intro f pi' w
    rcases eq_or_ne f f1 with rfl | hf1
    · rw [update_self]
      simp [hne, eq_comm]
    rw [update_of_ne hf1]
    rcases eq_or_ne f f0 with rfl | hf0
    · rw [update_self]
      simp [hf1, eq_comm]
    · rw [update_of_ne hf0]
      simp [hf0, hf1]
  -- a file with references is neither of the two
  have hused : ∀ f pi' w, (ft f).kind = .pipe pi' w → f ≠ f0 ∧ f ≠ f1 := by
    intro f pi' w hk
    constructor
    · rintro rfl
      rw [(h.kind f).mpr h₀] at hk
      cases hk
    · rintro rfl
      rw [(h.kind f).mpr h1] at hk
      cases hk
  refine ⟨?_, ?_, ?_, ?_, ?_⟩
  · intro f
    rcases eq_or_ne f f1 with rfl | hf1
    · rw [update_self, update_self]
      rfl
    rw [update_of_ne hf1, update_of_ne hf1]
    rcases eq_or_ne f f0 with rfl | hf0
    · rw [update_self, update_self]
      rfl
    · rw [update_of_ne hf0, update_of_ne hf0]
      exact h.count f
  · intro f
    rcases eq_or_ne f f1 with rfl | hf1
    · rw [update_self, update_self]
      simp
    rw [update_of_ne hf1, update_of_ne hf1]
    rcases eq_or_ne f f0 with rfl | hf0
    · rw [update_self, update_self]
      simp
    · rw [update_of_ne hf0, update_of_ne hf0]
      exact h.kind f
  · intro f f' pi' w hk hk'
    rcases (hkind f pi' w).mp hk with ⟨hf, hpp, hw⟩ | ⟨hf, hpp, hw⟩ | ⟨_, _, hf⟩ <;>
      rcases (hkind f' pi' w).mp hk' with ⟨hf', hpp', hw'⟩ | ⟨hf', hpp', hw'⟩ | ⟨_, _, hf'⟩
    · rw [hf, hf']
    · rw [hw] at hw'
      cases hw'
    · rw [hpp] at hf'
      exact absurd hf' (hold f' w)
    · rw [hw] at hw'
      cases hw'
    · rw [hf, hf']
    · rw [hpp] at hf'
      exact absurd hf' (hold f' w)
    · rw [hpp'] at hf
      exact absurd hf (hold f w)
    · rw [hpp'] at hf
      exact absurd hf (hold f w)
    · exact h.unique f f' pi' w hf hf'
  · intro pi'
    simp only [hkind]
    rw [Finset.mem_insert, h.opened]
    constructor
    · rintro (rfl | ⟨f, w, hk⟩)
      · exact ⟨f0, false, .inl ⟨rfl, rfl, rfl⟩⟩
      · obtain ⟨hf0, hf1⟩ := hused f pi' w hk
        exact ⟨f, w, .inr (.inr ⟨hf0, hf1, hk⟩)⟩
    · rintro ⟨f, w, ⟨_, hpp, _⟩ | ⟨_, hpp, _⟩ | ⟨_, _, hk⟩⟩
      · exact .inl hpp
      · exact .inl hpp
      · exact .inr ⟨f, w, hk⟩
  · intro pi' hpi' w
    simp only [hkind]
    rcases eq_or_ne pi' pi with rfl | hpp
    · rw [update_self]
      constructor
      · intro _
        cases w with
        | false => exact ⟨f0, .inl ⟨rfl, rfl, rfl⟩⟩
        | true => exact ⟨f1, .inr (.inl ⟨rfl, rfl, rfl⟩)⟩
      · intro _
        cases w <;> rfl
    · rw [update_of_ne hpp, h.ends pi' (Finset.mem_of_mem_insert_of_ne hpi' hpp)]
      constructor
      · rintro ⟨f, hk⟩
        obtain ⟨hf0, hf1⟩ := hused f pi' w hk
        exact ⟨f, .inr (.inr ⟨hf0, hf1, hk⟩)⟩
      rintro ⟨f, ⟨_, hbad, _⟩ | ⟨_, hbad, _⟩ | ⟨_, _, hk⟩⟩
      · exact absurd hbad hpp
      · exact absurd hbad hpp
      · exact ⟨f, hk⟩

end

end PipeFiles

namespace Kern

variable {E : VmPanic → Prop} {L : Link} {R : Multiset Nat} {k : Kern} {S : Finset ProcId}
  {g : ProcId → Share} {l : List Nat} {Q : Unit → Kern → Prop} {f' : Fin NFILE}

theorem vm_wp {α : Type} {prog : VmM α} {Q : α → Kern → Prop}
    (h : Wp E prog (fun a s => Q a { k with phys := s }) k.phys) : Wp E (vm prog) Q k :=
  Wp.zoom_iff.mpr h

theorem filedup_wp (hf : PipeFiles k.ftable k.pipe c P) (hc : 0 < c f)
    (hQ : PipeFiles (k.setFile f ⟨(k.ftable f).kind, (c f + 1 : Nat)⟩).ftable k.pipe
        (update c f (c f + 1)) P →
      Q () (k.setFile f ⟨(k.ftable f).kind, (c f + 1 : Nat)⟩)) : Wp E (filedup f) Q k := by
  have href := hf.count f
  unfold filedup
  rw [Wp.bind_iff, Wp.get_iff, if_neg (by omega), Wp.modify_iff, href]
  exact hQ (hf.recount hc (Nat.succ_pos _))

theorem pipeclose_wp {pi : Nat} {w : Bool} (h : Memory L R k.phys S g P l) (hpi : pi ∈ P)
    (hQ : ∀ s l', Memory L R s S g
        (if ((k.pipe pi).close w).readopen = false ∧ ((k.pipe pi).close w).writeopen = false then
          P.erase pi else P) l' →
      Q () { k.setPipe pi ((k.pipe pi).close w) with phys := s }) :
    Wp E (pipeclose L pi w) Q k := by
  have hself : ∀ x, (k.setPipe pi x).pipe pi = x := fun x => update_self ..
  unfold pipeclose
  rw [Wp.bind_iff, Wp.modify_iff, Wp.bind_iff, Wp.get_iff, hself]
  refine Wp.ite_iff.mpr ⟨fun hboth => ?_, fun hopen => ?_⟩
  · rw [if_pos hboth] at hQ
    exact vm_wp (kfree_wp (h.pipes pi hpi) (hQ _ (pi :: l) (h.give hpi)))
  · rw [if_neg hopen] at hQ
    exact hQ k.phys l h

theorem setFile_self (k : Kern) (f : Fin NFILE) (x : PipeFile) : (k.setFile f x).ftable f = x :=
  update_self ..

theorem setFile_ne (x : PipeFile) (h : f' ≠ f) : (k.setFile f x).ftable f' = k.ftable f' :=
  update_of_ne h ..

theorem fileclose_wp (h : Memory L R k.phys S g P l) (hf : PipeFiles k.ftable k.pipe c P)
    (hc : 0 < c f) (hQ : ∀ k' P' l', k'.proc = k.proc → Memory L R k'.phys S g P' l' →
      PipeFiles k'.ftable k'.pipe (update c f (c f - 1)) P' →
      SameKinds k.ftable k'.ftable (update c f (c f - 1)) → Q () k') :
    Wp E (fileclose L f) Q k := by
  have href := hf.count f
  have hne : ∀ x f', f' ≠ f → ((k.setFile f x).ftable f').kind = (k.ftable f').kind := by
    intro x f' hff
    rw [setFile_ne x hff]
  unfold fileclose
  rw [Wp.bind_iff, Wp.get_iff, if_neg (by omega)]
  refine Wp.ite_iff.mpr ⟨fun hmore => ?_, fun hlast => ?_⟩
  · have hcount : (k.ftable f).ref - 1 = (c f - 1 : Nat) := by omega
    rw [Wp.modify_iff, hcount]
    refine hQ _ P l rfl h (hf.recount hc (by omega)) ?_
    intro f' _
    by_cases hff : f' = f
    · rw [hff, setFile_self]
    · exact hne _ f' hff
  have hone : c f = 1 := by omega
  cases hk : (k.ftable f).kind with
  | none =>
    have hz := (hf.kind f).mp hk
    omega
  | pipe pi w =>
    have hpi : pi ∈ P := (hf.opened pi).mpr ⟨f, w, hk⟩
    rw [Wp.bind_iff, Wp.modify_iff]
    refine pipeclose_wp (k := k.setFile f ⟨.none, 0⟩) h hpi fun s l' hs => ?_
    rw [hone] at hQ
    refine hQ _ _ l' rfl hs (hf.closed hone hk) ?_
    intro f' hpos
    refine hne _ f' ?_
    rintro rfl
    rw [update_self] at hpos
    exact absurd hpos (Nat.lt_irrefl 0)

theorem fileclose_blank (hf : k.ftable f = ⟨.none, 1⟩)
    (hQ : Q () (k.setFile f ⟨.none, 0⟩)) : Wp E (fileclose L f) Q k := by
  unfold fileclose
  rw [Wp.bind_iff, Wp.get_iff, hf]
  exact hQ

theorem filealloc_wp {Q : Option (Fin NFILE) → Kern → Prop} (hnone : Q none k)
    (hsome : ∀ f, (k.ftable f).ref = 0 → Q (some f) (k.setFile f { k.ftable f with ref := 1 })) :
    Wp E filealloc Q k := by
  unfold filealloc
  rw [Wp.bind_iff, Wp.get_iff]
  cases hfind : (List.finRange NFILE).find? fun f => (k.ftable f).ref = 0 with
  | none => exact hnone
  | some f =>
    have href := List.find?_some hfind
    rw [decide_eq_true_eq] at href
    exact hsome f href

theorem overwrite {ι α : Type} [DecidableEq ι] {f0 f1 : ι} (ft : ι → α) (a b x y : α)
    (hne : f1 ≠ f0) : update (update (update (update ft f0 a) f1 b) f0 x) f1 y =
      update (update ft f0 x) f1 y := by
  rw [update_comm hne, update_idem, update_idem]

def piped (k : Kern) (f0 f1 : Fin NFILE) (pi : Nat) : Kern :=
  { k with
    ftable := update (update k.ftable f0 ⟨.pipe pi false, 1⟩) f1 ⟨.pipe pi true, 1⟩
    pipe := update k.pipe pi ⟨true, true⟩ }

theorem pipealloc_wp (h : Memory L R k.phys S g P l) (hf : PipeFiles k.ftable k.pipe c P)
    {Q : Option (Fin NFILE × Fin NFILE) → Kern → Prop}
    (hfail : ∀ s, Memory L R s S g P l → Q none { k with phys := s })
    (hok : ∀ f0 f1 pi s l', f1 ≠ f0 → c f0 = 0 → c f1 = 0 → pi ∉ P →
      Memory L R s S g (insert pi P) l' →
      Q (some (f0, f1)) { k.piped f0 f1 pi with phys := s }) : Wp E (pipealloc L) Q k := by
  have hzero : ∀ f, (k.ftable f).ref = 0 → c f = 0 := by
    intro f href
    rw [hf.count f] at href
    omega
  -- a file that is allocated and closed again is as before
  have hback : ∀ f, c f = 0 → ∀ x, update (update k.ftable f x) f ⟨.none, 0⟩ =
      k.ftable := by
    intro f hc x
    rw [update_idem, ← hf.blank hc, update_eq_self]
  unfold pipealloc
  refine Wp.bind (filealloc_wp (hfail k.phys h) fun f0 href0 => ?_)
  have hc0 := hzero f0 href0
  rw [hf.blank hc0, Wp.bind_iff]
  have hclose0 : ∀ s, Memory L R s S g P l →
      Q none { (k.setFile f0 ⟨.none, 1⟩).setFile f0 ⟨.none, 0⟩ with phys := s } := by
    intro s hs
    have heq : { (k.setFile f0 ⟨.none, 1⟩).setFile f0 ⟨.none, 0⟩ with phys := s } =
        { k with phys := s } := by
      unfold setFile
      simp only [hback f0 hc0]
    rw [heq]
    exact hfail s hs
  refine filealloc_wp ?_ fun f1 href1 => ?_
  · rw [Wp.bind_iff]
    unfold closeAll
    refine Wp.bind (fileclose_blank (setFile_self k f0 _) ?_)
    exact hclose0 k.phys h
  have hne : f1 ≠ f0 := by
    rintro rfl
    rw [setFile_self] at href1
    cases href1
  rw [setFile_ne _ hne] at href1
  have hc1 := hzero f1 href1
  simp only
  rw [setFile_ne _ hne, hf.blank hc1]
  refine Wp.bind (vm_wp (kalloc_wp h.free ?_ ?_))
  · intro s hpage hfl
    rw [if_pos rfl, Wp.bind_iff]
    unfold closeAll closeAll
    refine Wp.bind (fileclose_blank ?_ ?_)
    · exact (update_of_ne (Ne.symm hne) ..).trans (setFile_self k f0 _)
    refine Wp.bind (fileclose_blank ?_ ?_)
    · exact (update_of_ne hne ..).trans (update_self ..)
    have heq := overwrite k.ftable ⟨.none, 1⟩ ⟨.none, 1⟩ ⟨.none, 0⟩ ⟨.none, 0⟩ hne
    rw [← hf.blank hc0, update_eq_self, hf.blank hc0, ← hf.blank hc1,
      update_eq_self, hf.blank hc1] at heq
    have hall := hfail s (h.same hpage hfl)
    rw [← heq] at hall
    exact hall
  · intro pi l' s hl hpi hfl hout
    rw [hl] at h
    have hnew : pi ∉ P := fun hP => h.pipe_not_free hP List.mem_cons_self
    rw [if_neg hpi.ne_zero]
    have hall := hok f0 f1 pi s l' hne hc0 hc1 hnew (h.take hpi hfl hout)
    have heq := overwrite k.ftable ⟨.none, 1⟩ ⟨.none, 1⟩ ⟨.pipe pi false, 1⟩ ⟨.pipe pi true, 1⟩ hne
    unfold piped at hall
    rw [← heq] at hall
    have href0 : update (update k.ftable f0 ⟨.none, 1⟩) f1 ⟨.none, 1⟩ f0 =
        ⟨.none, 1⟩ := by
      rw [update_of_ne (Ne.symm hne), update_self]
    have href1 : ∀ x, update (update (update k.ftable f0 ⟨.none, 1⟩) f1
        ⟨.none, 1⟩) f0 x f1 = ⟨.none, 1⟩ := by
      intro x
      rw [update_of_ne hne, update_self]
    rw [Wp.bind_iff, Wp.modify_iff, Wp.bind_iff, Wp.modify_iff, Wp.bind_iff, Wp.modify_iff,
      Wp.pure_iff]
    unfold setPipe setFile
    simp only [href0, href1]
    exact hall

end Kern

end Xv6.Kernel

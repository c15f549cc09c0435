import DuckoUnix.Exec.Args
import DuckoUnix.Inode.Namei

/-!
# A failed exec

`exec` as a whole: it finds the file in a transaction, loads it while the inode is locked, gives the
inode back, pushes the arguments and commits. When it returns -1, the process, the memory and the
inode cache are as they were.

The inode is locked while the file is read, so what `readi` returns is given by the contents of the
inode. A device other than the console has nothing to read; `exec` of the console is left out. Of
`struct proc` there are the fields that `exec` uses.
-/

namespace DuckoUnix.Sys

open Lib Fs Inode Vm Exec

/-! ## The code -/

structure Proc where
  pgdir : Frame
  sz : ℕ
  /-- `tf->eip` -/
  eip : ℕ
  /-- `tf->esp` -/
  esp : ℕ
  name : Str
  cwd : Ip

/-- The calls that begin and end a transaction. -/
inductive Tx
  | begin_op
  | end_op
  deriving DecidableEq, Repr

structure World where
  store : Store
  mem : Mem
  proc : Proc
  /-- the calls of `begin_op` and `end_op` so far; no code reads it -/
  ops : List Tx

/-- How the kernel stops. -/
inductive Stop
  | mem (e : Vm.Fault)
  | store (e : Halt)

/-- Code of the kernel on behalf of one process. -/
abbrev W := Prog World Stop

variable {α : Type}

def inMem (x : Vm.K α) : W α := fun w =>
  match x w.mem with
  | .ok (a, m) => .ok (a, { w with mem := m })
  | .error e => .error (.mem e)

def inStore (t : T α) : W α := fun w =>
  match t.code w.store with
  | .ok (a, s) => .ok (a, { w with store := s })
  | .error e => .error (.store e)

def begin_op : W Unit := do
  inStore Inode.begin_op
  modify fun w => { w with ops := w.ops ++ [.begin_op] }

def end_op : W Unit := do
  inStore Inode.end_op
  modify fun w => { w with ops := w.ops ++ [.end_op] }

/-- What there is to read of an inode that is locked. -/
def fileAt (ip : Ip) (s : Store) : File :=
  let di := (s.icache ip).din
  if di.type = T_DEV then ⟨0, fun _ => 0⟩
  else ⟨di.size.toNat, fun i => (content s.disk di).getD i 0⟩

/-- The loop that looks for the last element of the path. -/
def lastElem : Str → Str → Str
  | last, [] => last
  | last, c :: s => lastElem (if c = slash then s else last) s

/-- `safestrcpy(curproc->name, last, sizeof(curproc->name))` -/
def progName (path : Str) : Str := (lastElem path path).take 15

/-- `if(pgdir) freevm(pgdir);` -/
def freeImage (L : Layout) : Option Frame → W Unit
  | none => pure ()
  | some pgdir => inMem (freevm L (some pgdir))

/-- `iunlockput(ip); end_op();` -/
def close (ip : Ip) : W Unit := do
  inStore (iunlockput ip)
  end_op

def bad (L : Layout) (pgdir : Option Frame) (ip : Ip) : W ℤ := do
  freeImage L pgdir
  close ip
  return -1

/-- Commit to the user image. -/
def commit (L : Layout) (path : Str) (im : Image) (sp : ℕ) : W ℤ := do
  let oldpgdir := (← get).proc.pgdir
  modify fun w => { w with
    proc := { w.proc with
      name := progName path, pgdir := im.pgdir, sz := im.sz, eip := im.entry, esp := sp } }
  inMem (freevm L (some oldpgdir))
  return 0

/-- `exec` behind the load loop: the inode has been given back. -/
def enter (L : Layout) (path : Str) (argv : List Str) (pgdir : Frame) (sz entry : ℕ) : W ℤ := do
  match ← inMem (stackPages L pgdir sz entry) with
  | none => return -1
  | some im => do
    match ← inMem (pushArgs im.pgdir im.sz argv) with
    | none => do
      freeImage L (some im.pgdir)
      return -1
    | some sp => commit L path im sp

def execFile (L : Layout) (path : Str) (argv : List Str) (ip : Ip) : W ℤ := do
  inStore (ilock ip)
  let file := fileAt ip (← get).store
  match readElfhdr file with
  | none => bad L none ip
  | some elf =>
    if elf.magic ≠ ELF_MAGIC then bad L none ip
    else do
      match ← inMem (setupkvm L) with
      | none => bad L none ip
      | some pgdir => do
        match ← inMem (loadSegments L file pgdir elf.phnum elf.phoff 0) with
        | none => bad L (some pgdir) ip
        | some sz => do
          close ip
          enter L path argv pgdir sz elf.entry

def exec (L : Layout) (path : Str) (argv : List Str) : W ℤ := do
  begin_op
  match ← inStore (namei (← get).proc.cwd path) with
  | none => do
    end_op
    return -1
  | some ip => execFile L path argv ip

variable {β : Type} {L : Layout} {E : Stop → Prop} {w w' : World} {R : Rules} {A : Alone}
  {g g' : Ghost} {s s' : Store} {v v' : View} {m m' : Mem} {ip : Ip} {i : ℕ} {d : Frame} {path : Str}
  {argv : List Str}

theorem wp_inMem {x : Vm.K α} {Q : α → World → Prop} : wp E (inMem x) Q w ↔
    wp (fun e => E (.mem e)) x (fun a m => Q a { w with mem := m }) w.mem := by
  unfold wp inMem
  cases x w.mem with
  | error e => exact Iff.rfl
  | ok p => exact Iff.rfl

theorem wp_inStore {t : T α} {Q : α → World → Prop} : wp E (inStore t) Q w ↔
    wp (fun e => E (.store e)) t.code (fun a s => Q a { w with store := s }) w.store := by
  unfold wp inStore
  cases t.code w.store with
  | error e => exact Iff.rfl
  | ok p => exact Iff.rfl

/-! ## Inodes -/

/-- The process that runs owns `g`. -/
def Owns (R : Rules) (s : Store) (g : Ghost) : Prop := ∃ v, Rep s v ∧ Stands R v g

theorem Owns.wp_store {t : T α} {Q : α → Ghost → Prop} {P : α → World → Prop}
    (h : Owns R w.store g) (hal : g.alone ≠ none) (ht : t.wp R.spec Q g)
    (hP : ∀ a g' s', Q a g' → Owns R s' g' → P a { w with store := s' }) :
    wp (fun _ => True) (inStore t) P w := by
  obtain ⟨v, hrep, H⟩ := h
  rw [wp_inStore]
  refine wp_weaken (wp_mono (H.wp_code t hrep hal ht) ?_) fun _ _ => trivial
  rintro a s' ⟨v', hrep', g', hQ, H'⟩
  exact hP a g' s' hQ ⟨v', hrep', H'⟩

/-- The number of references to inode `i`. -/
def refs (s : Store) (i : ℕ) : ℕ :=
  ∑ ip : Ip, if 0 < (s.icache ip).ref ∧ (s.icache ip).inum = i then (s.icache ip).ref else 0

theorem refs_eq (hrep : Rep s v) (H : Stands R v g) (hA : g.alone = some A) (i : ℕ) :
    refs s i = A.others i + g.refs.countP fun x => x.2 = i := by
  have hent : ∀ ip, (s.icache ip).ref = (v.ent ip).ref ∧ (s.icache ip).inum = (v.ent ip).inum := by
    intro ip
    rw [hrep.ent]
    exact ⟨rfl, rfl⟩
  have hal := H.alone A hA
  unfold refs
  simp only [fun ip => (hent ip).1, fun ip => (hent ip).2]
  by_cases hex : ∃ ip, 0 < (v.ent ip).ref ∧ (v.ent ip).inum = i
  · obtain ⟨ip, hr, rfl⟩ := hex
    rw [Finset.sum_eq_single ip]
    · rw [if_pos ⟨hr, rfl⟩, hal.others ip hr]
      refine congrArg _ (Multiset.countP_congr rfl ?_)
      rintro ⟨jp, j⟩ hm
      have hj := H.inum jp j hm
      have hjr := H.ref_pos hm
      refine propext ⟨fun e => ?_, fun e => ?_⟩
      · have hjp : jp = ip := e
        rw [← hjp]
        exact hj.symm
      · exact H.unique jp ip hjr hr (hj.trans e)
    · intro jp _ hne
      refine if_neg fun ⟨hjr, hj⟩ => hne (H.unique jp ip hjr hr hj)
    · exact fun h => absurd (Finset.mem_univ ip) h
  · push Not at hex
    rw [Finset.sum_eq_zero fun ip _ => if_neg fun ⟨hr, hi⟩ => hex ip hr hi, hal.free i hex, zero_add]
    symm
    rw [Multiset.countP_eq_zero]
    rintro ⟨jp, j⟩ hm rfl
    exact hex jp (H.ref_pos hm) (H.inum jp j hm)

/-- Directories are as they should be, and anything may panic. -/
def careless (sb : Superblock) : Rules := { lookups sb with Panics := fun _ => True }

/-- What a process owns that has the working directory `cwd`. -/
def atRest (s : Store) (cwd : Ip) : Ghost := holder (view s) {(cwd, (s.icache cwd).inum)}

theorem TreeReady.careless {cwd : Ip} (h : TreeReady s cwd) :
    Stands (careless s.sb) (view s) (atRest s cwd) := by
  have H := h.stands
  exact ⟨H.sb, H.ninodes, H.count, H.inum, H.lt, H.unique, H.locked, H.owner, H.known, H.clean,
    H.good, H.tx, H.stale, H.alone⟩

theorem TreeReady.calm {cwd : Ip} (h : TreeReady s cwd) :
    ∃ A, (atRest s cwd).Walks (Sys.careless s.sb) A := by
  have hcalm := (TreeReady.careless h).calm rfl (decide_eq_true h.tx) (fun _ => rfl) fun _ => id
  exact ⟨_, hcalm, fun _ _ hg => hg, .inl trivial, .inl trivial⟩

/-! ## What a failed call leaves -/

/-- The transaction is over, and the process is back with `g` and without other memory. -/
structure Failed (R : Rules) (g : Ghost) (w w' : World) : Prop where
  proc : w'.proc = w.proc
  mem : Vm.Moves w.mem 0 w'.mem 0
  store : Owns R w'.store { g with tx := false }
  ops : w'.ops = w.ops ++ [.end_op]

/-- The process has locked the file. -/
structure Opened (R : Rules) (g : Ghost) (ip : Ip) (s : Store) (A : Alone) : Prop where
  calm : g.Calm R A
  file : ∃ i n, i < R.sb.nino ∧ g.Place ip i ∧ R.Good i n ∧
    Owns R s ((g.take ip i).hold ip (.known n.attr n))

theorem end_wp {P : Unit → World → Prop} (h : Owns R w.store g) (hal : g.alone ≠ none)
    (htx : g.tx = true)
    (hP : ∀ s', Owns R s' { g with tx := false } →
      P () { w with store := s', ops := w.ops ++ [.end_op] }) :
    wp (fun _ => True) end_op P w := by
  unfold end_op
  rw [wp_bind]
  refine h.wp_store (Q := fun _ g' => g' = { g with tx := false }) hal
    (Inode.end_op_wp htx rfl) ?_
  rintro _ _ s' rfl hs'
  rw [wp_modify]
  exact hP s' hs'

theorem Opened.close {P : Unit → World → Prop} (h : Opened R g ip w.store A)
    (hP : ∀ s', Owns R s' { g with tx := false } →
      P () { w with store := s', ops := w.ops ++ [.end_op] }) :
    wp (fun _ => True) (close ip) P w := by
  obtain ⟨i, n, hi, hplace, hgood, hown⟩ := h.file
  have hal : g.alone ≠ none := by
    rw [h.calm.alone]
    exact Option.some_ne_none _
  unfold Sys.close
  rw [wp_bind]
  refine hown.wp_store (Q := fun _ g' => g' = g) hal (h.calm.iunlockput_wp hi hplace hgood rfl) ?_
  rintro _ _ s' rfl hs'
  exact end_wp hs' hal h.calm.tx hP

def imageOf (m : Mem) : Option Frame → Multiset Frame
  | none => 0
  | some d => vm m.mem d

theorem freeImage_wp (pgdir : Option Frame) (h : Vm.Own L w.mem (imageOf w.mem pgdir)) :
    wp (fun _ => True) (freeImage L pgdir) (fun _ w' => ∃ m', w' = { w with mem := m' } ∧
      Vm.Moves w.mem (imageOf w.mem pgdir) m' 0) w := by
  match pgdir with
  | none => exact ⟨w.mem, rfl, .refl⟩
  | some d =>
    show wp _ (inMem _) _ w
    rw [wp_inMem]
    refine wp_mono (freevm_spec h) ?_
    rintro _ m' ⟨hfree, -⟩
    exact ⟨m', rfl, hfree⟩

theorem bad_wp (pgdir : Option Frame) (h : Opened R g ip w.store A)
    (hown : Vm.Own L w.mem (imageOf w.mem pgdir)) :
    wp (fun _ => True) (bad L pgdir ip) (fun _ w' => w'.proc = w.proc ∧
      Vm.Moves w.mem (imageOf w.mem pgdir) w'.mem 0 ∧ Owns R w'.store { g with tx := false } ∧
      w'.ops = w.ops ++ [.end_op]) w := by
  unfold bad
  rw [wp_bind]
  refine wp_mono (freeImage_wp pgdir hown) ?_
  rintro _ _ ⟨m', rfl, hfree⟩
  rw [wp_bind]
  exact Opened.close (w := { w with mem := m' }) h fun s' hs' => ⟨rfl, hfree, hs', rfl⟩

theorem commit_wp {im : Image} {sp : ℕ} : wp (fun _ => True) (commit L path im sp) (fun r _ => r = 0) w := by
  unfold commit
  rw [wp_bind, wp_get, wp_bind, wp_modify, wp_bind, wp_inMem]
  unfold wp
  split
  · rfl
  · trivial

theorem enter_wp {sz start : ℕ} (h : Loaded L d sz w.mem) :
    wp (fun _ => True) (enter L path argv d sz start) (fun r w' => r = -1 → w'.proc = w.proc ∧
      Vm.Moves w.mem (vm w.mem.mem d) w'.mem 0 ∧ w'.store = w.store ∧ w'.ops = w.ops) w := by
  unfold enter
  rw [wp_bind, wp_inMem]
  refine wp_mono (stackPages_spec h) ?_
  rintro r m₁ ⟨hmakes, -⟩
  match r with
  | none => exact fun _ => ⟨rfl, hmakes.failed rfl, rfl, rfl⟩
  | some im =>
    have hready := hmakes.ready im rfl
    dsimp only
    rw [wp_bind, wp_inMem]
    refine wp_mono (pushArgs_onlyUser hready) fun r m₂ honly => ?_
    have hfill := honly.fills hready.kern
    match r with
    | none =>
      dsimp only
      rw [wp_bind]
      refine wp_mono (freeImage_wp (some im.pgdir) (hready.fills hfill).own) ?_
      rintro _ _ ⟨m₃, rfl, hfree⟩ -
      exact ⟨rfl, (hmakes.moves im rfl).trans ((hfill.moves hready.own).trans hfree), rfl, rfl⟩
    | some sp =>
      refine wp_mono commit_wp ?_
      rintro _ _ rfl h0
      exact absurd h0 (by decide)

theorem execFile_wp (hcalm : g.Calm R A) (hany : ∀ e, R.Panics e) (hi : i < R.sb.nino)
    (hplace : g.Place ip i) (hs : Owns R w.store (g.take ip i)) (hm : Vm.Own L w.mem 0) :
    wp (fun _ => True) (execFile L path argv ip) (fun r w' => r = -1 → Failed R g w w') w := by
  have hal : g.alone ≠ none := by
    rw [hcalm.alone]
    exact Option.some_ne_none _
  unfold execFile
  rw [wp_bind]
  refine hs.wp_store (Q := fun _ g' => ∃ n, R.Seen (g.take ip i) i n ∧
    g' = (g.take ip i).hold ip (.known n.attr n)) hal (ilock_wp Ghost.mem_take (hcalm.free ip ip i)
      (.inl (hany _)) fun n _ hseen => ⟨n, hseen, rfl⟩) ?_
  rintro _ _ s₁ ⟨n, hseen, rfl⟩ hs₁
  have hopen : Opened R g ip s₁ A := ⟨hcalm, i, n, hi, hplace, hseen.good, hs₁⟩
  rw [wp_bind, wp_get]
  dsimp only
  generalize fileAt ip s₁ = file
  -- nothing has been taken yet
  have hbad : ∀ m', Vm.Moves w.mem 0 m' 0 → wp (fun _ => True) (bad L none ip)
      (fun r w' => r = -1 → Failed R g w w') { w with store := s₁, mem := m' } := by
    intro m' hmoves
    refine wp_mono (bad_wp none hopen (hm.moves' hmoves)) ?_
    rintro _ w' ⟨hproc, hfree, hown, hops⟩ -
    exact ⟨hproc, hmoves.trans hfree, hown, hops⟩
  cases readElfhdr file with
  | none => exact hbad w.mem .refl
  | some elf =>
    refine wp_ite (fun _ => hbad w.mem .refl) fun _ => ?_
    rw [wp_bind, wp_inMem]
    refine wp_mono (setupkvm_spec hm) fun r m₁ hset => ?_
    match r with
    | none => exact hbad m₁ (hset.failed rfl).1
    | some d =>
      have hmoves := hset.moves d rfl
      have hloaded := loaded_new hm hset
      dsimp only
      rw [wp_bind, wp_inMem]
      refine wp_mono (loadSegments_spec hloaded) ?_
      rintro r m₂ ⟨hch, hdone⟩
      match r with
      | none =>
        refine wp_mono (bad_wp (some d) hopen (hloaded.own.moves' hch.moves)) ?_
        rintro _ w' ⟨hproc, hfree, hown, hops⟩ -
        exact ⟨hproc, hmoves.trans (hch.moves.trans hfree), hown, hops⟩
      | some sz =>
        dsimp only
        rw [wp_bind]
        refine hopen.close fun s₂ hs₂ => ?_
        refine wp_mono (enter_wp (hdone sz rfl).1) fun r w' hfail hr => ?_
        obtain ⟨hproc, hfree, hstore, hops⟩ := hfail hr
        refine ⟨hproc, hmoves.trans (hch.moves.trans hfree), ?_, hops⟩
        rw [hstore]
        exact hs₂

def begun (s : Store) : Store := { s with outstanding := s.outstanding + 1 }

theorem begin_wp {P : Unit → World → Prop}
    (hP : P () { w with store := begun w.store, ops := w.ops ++ [.begin_op] }) :
    wp E begin_op P w := by
  unfold begin_op
  rw [wp_bind, wp_inStore]
  exact hP

theorem namei_wp {cwd : Ip} (H : g.Walks R A) (hany : ∀ e, R.Panics e) (hcwd : (cwd, i) ∈ g.refs)
    (hroot : ROOTINO < R.sb.nino) : (namei cwd path).wp R.spec (fun r g' => match r with
      | none => g' = g
      | some ip => ∃ j, g.Place ip j ∧ g' = g.take ip j) g := by
  unfold namei
  rw [Thread.wp_bind]
  refine namex_wp H hcwd (.inl (hany _)) hroot (fun _ => rfl) fun ip j name _ hplace => ?_
  exact ⟨j, hplace, rfl⟩

theorem exec_wp {cwd : Ip} (hcwd : w.proc.cwd = cwd) (hs : TreeReady (begun w.store) cwd)
    (hm : Vm.Own L w.mem 0) :
    wp (fun _ => True) (exec L path argv) (fun r w' => r = -1 →
      Failed (careless w.store.sb) (atRest (begun w.store) cwd)
        { w with store := begun w.store, ops := w.ops ++ [.begin_op] } w') w := by
  have H := TreeReady.careless hs
  have hown : Owns _ (begun w.store) _ := ⟨_, hs.settled.consistent.rep, H⟩
  obtain ⟨A, hwalks⟩ := TreeReady.calm hs
  have hal : (atRest (begun w.store) cwd).alone ≠ none := Option.some_ne_none _
  unfold exec
  rw [wp_bind]
  refine begin_wp ?_
  rw [wp_bind, wp_get, wp_bind, hcwd]
  refine hown.wp_store hal (namei_wp hwalks (fun _ => trivial) (Multiset.mem_singleton_self _)
    hs.root.1) fun r g' s₁ hr hs₁ => ?_
  match r with
  | none =>
    rw [show g' = _ from hr] at hs₁
    dsimp only
    rw [wp_bind]
    exact end_wp hs₁ hal hwalks.tx fun s₂ hs₂ _ => ⟨rfl, .refl, hs₂, rfl⟩
  | some ip =>
    obtain ⟨j, hplace, rfl⟩ := hr
    obtain ⟨v, hrep, Hv⟩ := hs₁
    have hlt : j < (careless w.store.sb).sb.nino := by
      rw [← Hv.inum ip j Ghost.mem_take]
      exact Hv.lt ip (Hv.ref_pos Ghost.mem_take)
    refine wp_mono (execFile_wp (w := { w with store := s₁, ops := w.ops ++ [.begin_op] })
      hwalks.toCalm (fun _ => trivial) hlt hplace ⟨v, hrep, Hv⟩ hm) fun r w' hfail hr => ?_
    have hf := hfail hr
    exact ⟨hf.proc, hf.mem, hf.store, hf.ops⟩

/-- The process, the memory and the inode cache are as they were, and one transaction has begun and
ended. -/
structure Restored (w w' : World) : Prop where
  proc : w'.proc = w.proc
  /-- the memory of the process -/
  user : ∀ a < KERNBASE, byteAt w'.mem.mem w.proc.pgdir a = byteAt w.mem.mem w.proc.pgdir a
  /-- all other memory that is in use -/
  frame : ∀ f, f ∉ w.mem.freelist → w'.mem.mem f = w.mem.mem f
  free : w'.mem.freelist.Perm w.mem.freelist
  refs : ∀ i, refs w'.store i = refs w.store i
  locked : ∀ ip, (w'.store.icache ip).locked = (w.store.icache ip).locked
  ops : w'.ops = w.ops ++ [.begin_op, .end_op]

theorem refs_begun (s : Store) (i : ℕ) : refs (begun s) i = refs s i := rfl

/-- For every file, argument vector and failure of `kalloc`: `exec` that returns -1 leaves everything as
it was. -/
theorem exec_failure_restores (hs : TreeReady (begun w.store) w.proc.cwd)
    (hm : Vm.Own L w.mem (vm w.mem.mem w.proc.pgdir)) (h : exec L path argv w = .ok (-1, w')) :
    Restored w w' := by
  have hm0 : Vm.Own L w.mem (0 + vm w.mem.mem w.proc.pgdir) := by rwa [zero_add]
  have hfailed := wp_ok (exec_wp rfl hs hm0.left) h rfl
  obtain ⟨v, hrep, H⟩ := hfailed.store
  have hmem : Vm.Moves w.mem 0 w'.mem 0 := hfailed.mem
  have hframe : ∀ f, f ∉ w.mem.freelist → w'.mem.mem f = w.mem.mem f := fun f hf =>
    hmem.frame f (by rwa [add_zero])
  constructor
  · exact hfailed.proc
  · intro a ha
    exact byteAt_congr (view_of_vm (fun f hf => hm0.same hmem hf) (user_of_addr ha))
  · exact hframe
  · have htotal := hmem.total
    rw [add_zero, add_zero] at htotal
    exact Multiset.coe_eq_coe.mp htotal
  · intro i
    rw [refs_eq hrep H rfl, ← refs_begun w.store]
    exact (refs_eq hs.settled.consistent.rep (TreeReady.careless hs) rfl i).symm
  · intro ip
    have hnot : ¬ (v.ent ip).locked = true := fun hl => (H.locked ip).mp hl rfl
    rw [hrep.ent] at hnot
    exact (Bool.eq_false_of_not_eq_true hnot).trans (hs.unlocked ip).symm
  · rw [hfailed.ops]
    exact List.append_assoc _ _ _

/-- A process in an empty file system, with an empty address space. -/
def bareWorld : World where
  store := { rootOpen with outstanding := 0 }
  mem := freshMem
  proc := ⟨0x1100, 0, 0, 0, [], ip0⟩
  ops := []

theorem bareWorld_own : Vm.Own smallKernel bareWorld.mem (vm bareWorld.mem.mem 0x1100) := by
  have hzero : bareWorld.mem.mem 0x1100 = fun _ => 0 := rfl
  have hvm : vm bareWorld.mem.mem 0x1100 = {0x1100} := by
    rw [vm_eq_tables fun x _ => entry_of_no_tab (tab_zeroed hzero _), tables_zeroed hzero]
  have hnew : (0x1100 : Frame) ∉ freshMem.freelist := fun hm => by
    have := (mem_framesFrom (by decide) hm).2
    exact absurd this (by decide)
  have hown := freshMem_own
  rw [hvm]
  constructor
  · rw [Multiset.nodup_add]
    refine ⟨(Multiset.nodup_add.mp hown.nodup).1, Multiset.nodup_singleton _, ?_⟩
    refine Multiset.disjoint_left.mpr fun hf hd => hnew ?_
    rw [← Multiset.mem_singleton.mp hd]
    exact hf
  · intro f hf
    rcases Multiset.mem_add.mp hf with hf | hf
    · exact hown.valid f (by rwa [add_zero])
    · rw [Multiset.mem_singleton.mp hf]
      exact smallKernel_valid (by decide) (by decide)

theorem exec_missing (h : (namei w.proc.cwd path).code (begun w.store) = .ok (none, s')) :
    ∃ w', exec L path argv w = .ok (-1, w') := by
  have hwp : wp (fun _ => False) (exec L path argv) (fun r _ => r = -1) w := by
    unfold exec
    rw [wp_bind]
    refine begin_wp ?_
    rw [wp_bind, wp_get, wp_bind, wp_inStore]
    unfold wp
    rw [h]
    rfl
  obtain ⟨r, w', hw', rfl⟩ := wp_returns hwp
  exact ⟨w', hw'⟩

/-- `exec` of a file that is not there. -/
theorem exec_failure_restores_missing : ∃ w', exec smallKernel [120] [] bareWorld = .ok (-1, w') ∧
    Restored bareWorld w' := by
  have hroom : TwoPlaces rootOpen := ⟨⟨1, by decide⟩, ⟨2, by decide⟩, by decide, rfl, rfl⟩
  obtain ⟨r, s', hs', hr⟩ := rootOpen_ready.namex hroom [120] false
  have hnone : target (nodes rootOpen) false (start rootOpen ip0 [120]) (components [120]) = none := by
    decide +kernel
  have hr0 : r = none := Option.map_eq_none_iff.mp (hr.trans hnone)
  have hnamei : (namei ip0 [120]).code rootOpen = .ok (none, s') := by
    rw [hr0] at hs'
    exact code_bind_ok hs' _
  have hfail : ∃ w', exec smallKernel [120] [] bareWorld = .ok (-1, w') := exec_missing hnamei
  obtain ⟨w', hw'⟩ := hfail
  exact ⟨w', hw', exec_failure_restores rootOpen_ready bareWorld_own hw'⟩

end DuckoUnix.Sys

import Dafeng.Learning.Replace
import Dafeng.Library.Transition

/-!
# Dafeng.Learning.Writers

Several processes that replace the same files: the learning rounds of the daemon and of
`dafeng-cli learn`. The temporary name of a file is the same for all of them, so that a
process can rename a file that another one has begun again.
-/

namespace Dafeng.Learning

/-! ### Processes -/

/-- A file that is to be replaced, and the writes for it. -/
structure Replacement (φ : Type) where
  path : φ
  pieces : List Bytes
  deriving DecidableEq, Repr

/-- Where a process is in a replacement. -/
structure Writing (φ : Type) where
  job : Replacement φ
  rest : List Bytes
  stream : Stream
  closed : Bool := false
  deriving DecidableEq, Repr

/-- The temporary file of a process holds what it has written. -/
structure Writing.Holds {φ : Type} (c : Writing φ) (d : Disk φ) : Prop where
  temp : d.inode (.temp c.job.path) = some c.stream.fd
  written : d.bytes c.stream.fd ++ c.rest.flatten = c.job.pieces.flatten
  atEnd : c.stream.offset = (d.bytes c.stream.fd).length
  good : c.stream.good = true
  finished : c.closed = true → c.rest = []

/-- The disk, and what each process has still to do. -/
structure Writers (ω φ : Type) where
  disk : Disk φ
  todo : ω → List (Replacement φ)
  current : ω → Option (Writing φ) := fun _ => none

inductive Writers.Label (ω : Type) where
  | openTemp (w : ω)
  | write (w : ω)
  | close (w : ω)
  | rename (w : ω)
  deriving DecidableEq, Repr

variable {ω φ : Type}

namespace Writers

/-! ### The invariant -/

/-- A file is absent, is as it was, or is all that one process wrote. -/
def Intact (before : Disk φ) (jobs : ω → List (Replacement φ)) (s : Writers ω φ) : Prop :=
  ∀ path, s.disk.read (.file path) = none ∨
    s.disk.read (.file path) = before.read (.file path) ∨
    ∃ w, ∃ job ∈ jobs w, job.path = path ∧ s.disk.read (.file path) = some job.pieces.flatten

/-- A process opens a temporary file only when no other one is between its open and its
rename of the same file. -/
def Alone (s : Writers ω φ) : Label ω → Prop
  | .openTemp w => ∀ job ∈ (s.todo w).head?, ∀ w' c, w' ≠ w → s.current w' = some c →
    c.job.path ≠ job.path
  | _ => True

/-- The invariant of a run in which the processes keep out of each other's way. -/
structure Inv (before : Disk φ) (jobs : ω → List (Replacement φ)) (s : Writers ω φ) : Prop where
  intact : s.Intact before jobs
  todo : ∀ w, ∀ job ∈ s.todo w, job ∈ jobs w
  job : ∀ w c, s.current w = some c → c.job ∈ jobs w
  holds : ∀ w c, s.current w = some c → c.Holds s.disk
  apart : ∀ w w' c c', s.current w = some c → s.current w' = some c' →
    c.job.path = c'.job.path → w = w'

variable {before : Disk φ} {jobs : ω → List (Replacement φ)} {s : Writers ω φ} {w : ω}

/-- The other temporary files are other files. -/
theorem Inv.fd_ne (h : s.Inv before jobs) {w' : ω} {c c' : Writing φ}
    (hc : s.current w = some c) (hc' : s.current w' = some c') (hne : w' ≠ w) :
    c'.stream.fd ≠ c.stream.fd := by
  intro hfd
  have htemp := (h.holds w' c' hc').temp
  rw [hfd] at htemp
  have hname := s.disk.distinct _ _ _ htemp (h.holds w c hc).temp
  exact hne (h.apart w' w c' c hc' hc (FileName.temp.inj hname))

/-- No process writes to a file under its own name. -/
theorem Inv.file_ne (h : s.Inv before jobs) {c : Writing φ} (hc : s.current w = some c)
    (path : φ) : s.disk.inode (.file path) ≠ some c.stream.fd := by
  intro hfile
  cases s.disk.distinct _ _ _ hfile (h.holds w c hc).temp

/-! ### Steps -/

variable [DecidableEq ω]

/-- A process goes to another place, or is through with a replacement. -/
def moved (s : Writers ω φ) (w : ω) (c : Option (Writing φ)) : ω → Option (Writing φ) :=
  Function.update s.current w c

theorem moved_self (s : Writers ω φ) (w : ω) (c : Option (Writing φ)) : s.moved w c w = c :=
  Function.update_self ..

theorem moved_of_ne {s : Writers ω φ} {w w' : ω} (h : w' ≠ w) (c : Option (Writing φ)) :
    s.moved w c w' = s.current w' :=
  Function.update_of_ne h ..

variable [DecidableEq φ]

/-- The step function: the operations of `replaceFile`, of which only a rename can fail,
for want of its file. -/
def step (s : Writers ω φ) : Label ω → Option (Writers ω φ)
  | .openTemp w =>
    match s.current w, s.todo w with
    | none, job :: jobs =>
      let opened := s.disk.openTruncate (.temp job.path)
      some {
        disk := opened.1
        todo := Function.update s.todo w jobs
        current := s.moved w (some { job, rest := job.pieces, stream := { fd := opened.2 } }) }
    | _, _ => none
  | .write w =>
    match s.current w with
    | some { job, rest := data :: rest, stream, closed := false } =>
      let wrote := stream.put s.disk data none
      some { s with
        disk := wrote.1
        current := s.moved w (some { job, rest, stream := wrote.2 }) }
    | _ => none
  | .close w =>
    match s.current w with
    | some { job, rest := [], stream, closed := false } =>
      some { s with current := s.moved w (some { job, rest := [], stream, closed := true }) }
    | _ => none
  | .rename w =>
    match s.current w with
    | some { job, closed := true, .. } =>
      some { s with
        disk := (s.disk.rename (.temp job.path) (.file job.path)).getD s.disk
        current := s.moved w none }
    | _ => none

end Writers

/-- Processes with work to do on a disk. -/
def writers [DecidableEq ω] [DecidableEq φ] (disk : Disk φ) (jobs : ω → List (Replacement φ)) :
    System (Writers ω φ) (Writers.Label ω) where
  init := { disk, todo := jobs }
  step := Writers.step

namespace Writers

/-! ### What a step does -/

variable [DecidableEq ω] [DecidableEq φ] {before : Disk φ} {jobs : ω → List (Replacement φ)}
  {s s' : Writers ω φ} {w : ω}

theorem step_openTemp (h : step s (.openTemp w) = some s') : ∃ job jobs,
    s.current w = none ∧ s.todo w = job :: jobs ∧ s' = {
      disk := (s.disk.openTruncate (.temp job.path)).1
      todo := Function.update s.todo w jobs
      current := s.moved w (some {
        job, rest := job.pieces
        stream := { fd := (s.disk.openTruncate (.temp job.path)).2 } }) } := by
  simp only [step] at h
  split at h
  · next job jobs hcurrent htodo =>
      exact ⟨job, jobs, hcurrent, htodo, (Option.some.inj h).symm⟩
  · cases h

theorem step_write (h : step s (.write w) = some s') : ∃ job data rest stream,
    s.current w = some { job, rest := data :: rest, stream } ∧ s' = { s with
      disk := (stream.put s.disk data none).1
      current := s.moved w (some {
        job, rest, stream := (stream.put s.disk data none).2 }) } := by
  simp only [step] at h
  split at h
  · next job data rest stream hcurrent =>
      exact ⟨job, data, rest, stream, hcurrent, (Option.some.inj h).symm⟩
  · cases h

theorem step_close (h : step s (.close w) = some s') : ∃ job stream,
    s.current w = some { job, rest := [], stream } ∧ s' = { s with
      current := s.moved w (some { job, rest := [], stream, closed := true }) } := by
  simp only [step] at h
  split at h
  · next job stream hcurrent => exact ⟨job, stream, hcurrent, (Option.some.inj h).symm⟩
  · cases h

theorem step_rename (h : step s (.rename w) = some s') : ∃ job rest stream,
    s.current w = some { job, rest, stream, closed := true } ∧ s' = { s with
      disk := (s.disk.rename (.temp job.path) (.file job.path)).getD s.disk
      current := s.moved w none } := by
  simp only [step] at h
  split at h
  · next job rest stream hcurrent =>
      exact ⟨job, rest, stream, hcurrent, (Option.some.inj h).symm⟩
  · cases h

theorem Inv.openTemp (h : s.Inv before jobs) (halone : s.Alone (.openTemp w))
    (hs : step s (.openTemp w) = some s') : s'.Inv before jobs := by
  obtain ⟨job, todo, hcurrent, htodo, rfl⟩ := step_openTemp hs
  obtain ⟨hinode, hnames, hempty, hbytes⟩ := Directory.openTruncate_spec s.disk (.temp job.path)
  have hother : ∀ w' c, w' ≠ w → s.current w' = some c → c.job.path ≠ job.path :=
    halone job (by rw [htodo]; rfl)
  refine ⟨fun path => ?_, fun w' j hj => ?_, fun w' c hc => ?_, fun w' c hc => ?_, ?_⟩
  · have hread := Directory.read_openTruncate_of_ne (d := s.disk) (n := .temp job.path)
      (m := .file path) (by simp)
    simpa only [hread] using h.intact path
  · dsimp only at hj
    rw [Function.update_apply] at hj
    split_ifs at hj with hw
    · exact hw ▸ h.todo w j (htodo ▸ List.mem_cons_of_mem _ hj)
    · exact h.todo w' j hj
  · dsimp only at hc
    by_cases hw : w' = w
    · subst hw
      rw [moved_self] at hc
      obtain rfl := Option.some.inj hc
      exact h.todo w' job (htodo ▸ List.mem_cons_self)
    · rw [moved_of_ne hw] at hc
      exact h.job w' c hc
  · dsimp only at hc ⊢
    by_cases hw : w' = w
    · subst hw
      rw [moved_self] at hc
      obtain rfl := Option.some.inj hc
      refine ⟨hinode, ?_, ?_, rfl, fun hclosed => by cases hclosed⟩
      · dsimp only
        rw [hempty, List.nil_append]
      · dsimp only
        rw [hempty]
        rfl
    · rw [moved_of_ne hw] at hc
      have hholds := h.holds w' c hc
      -- the temporary file of another process is another one
      have hname : FileName.temp c.job.path ≠ .temp job.path :=
        fun heq => hother w' c hw hc (FileName.temp.inj heq)
      obtain ⟨hsame, hfd⟩ := hnames _ hname
      have hne : c.stream.fd ≠ (s.disk.openTruncate (.temp job.path)).2 :=
        fun heq => hfd (heq ▸ hholds.temp)
      refine ⟨hsame.trans hholds.temp, ?_, ?_, hholds.good, hholds.finished⟩
      · rw [hbytes _ hne]
        exact hholds.written
      · rw [hbytes _ hne]
        exact hholds.atEnd
  · intro w₁ w₂ c₁ c₂ h₁ h₂ hpath
    dsimp only at h₁ h₂
    by_cases hw₁ : w₁ = w
    · by_cases hw₂ : w₂ = w
      · rw [hw₁, hw₂]
      · rw [hw₁, moved_self] at h₁
        rw [moved_of_ne hw₂] at h₂
        obtain rfl := Option.some.inj h₁
        exact absurd hpath.symm (hother w₂ c₂ hw₂ h₂)
    · rw [moved_of_ne hw₁] at h₁
      by_cases hw₂ : w₂ = w
      · rw [hw₂, moved_self] at h₂
        obtain rfl := Option.some.inj h₂
        exact absurd hpath (hother w₁ c₁ hw₁ h₁)
      · rw [moved_of_ne hw₂] at h₂
        exact h.apart w₁ w₂ c₁ c₂ h₁ h₂ hpath

omit [DecidableEq φ] in
/-- A process that goes on with its replacement, or is through with it, and leaves the
temporary files of the others alone. -/
theorem Inv.goesOn (h : s.Inv before jobs) {disk : Disk φ} {c : Option (Writing φ)}
    (hjob : ∀ c' ∈ c, ∃ c₁, s.current w = some c₁ ∧ c'.job = c₁.job)
    (hintact : Intact before jobs { s with disk, current := s.moved w c })
    (hself : ∀ c' ∈ c, c'.Holds disk)
    (hothers : ∀ w' c', w' ≠ w → s.current w' = some c' → c'.Holds disk) :
    Inv before jobs { s with disk, current := s.moved w c } := by
  have hback : ∀ w' c', s.moved w c w' = some c' →
      ∃ c₁, s.current w' = some c₁ ∧ c'.job = c₁.job := by
    intro w' c' hc
    by_cases hw : w' = w
    · subst hw
      rw [moved_self] at hc
      exact hjob c' hc
    · rw [moved_of_ne hw] at hc
      exact ⟨c', hc, rfl⟩
  refine ⟨hintact, h.todo, fun w' c' hc => ?_, fun w' c' hc => ?_, ?_⟩
  · obtain ⟨c₁, hc₁, hsame⟩ := hback w' c' hc
    exact hsame ▸ h.job w' c₁ hc₁
  · dsimp only at hc
    by_cases hw : w' = w
    · subst hw
      rw [moved_self] at hc
      exact hself c' hc
    · rw [moved_of_ne hw] at hc
      exact hothers w' c' hw hc
  · intro w₁ w₂ c₁ c₂ h₁ h₂ hpath
    obtain ⟨d₁, hd₁, hsame₁⟩ := hback w₁ c₁ h₁
    obtain ⟨d₂, hd₂, hsame₂⟩ := hback w₂ c₂ h₂
    exact h.apart w₁ w₂ d₁ d₂ hd₁ hd₂ (by rw [← hsame₁, ← hsame₂, hpath])

omit [DecidableEq φ] in
theorem Inv.write (h : s.Inv before jobs) {job : Replacement φ} {data : Bytes}
    {rest : List Bytes} {stream : Stream}
    (hcurrent : s.current w = some { job, rest := data :: rest, stream }) :
    Inv before jobs { s with
      disk := (stream.put s.disk data none).1
      current := s.moved w (some { job, rest, stream := (stream.put s.disk data none).2 }) } := by
  have hholds := h.holds w _ hcurrent
  have hend : stream.good = true → stream.offset = (s.disk.bytes stream.fd).length :=
    fun _ => hholds.atEnd
  have hput := appended_put data none hend
  have hgood : (stream.put s.disk data none).2.good = true := by
    rw [Stream.put, if_pos hholds.good]
    exact hholds.good
  refine h.goesOn ?_ (fun path => ?_) ?_ fun w' c hw hc => ?_
  · intro c hc
    obtain rfl := Option.some.inj hc
    exact ⟨_, hcurrent, rfl⟩
  · have hread : (stream.put s.disk data none).1.read (.file path) =
        s.disk.read (.file path) :=
      Directory.read_congr (congrFun hput.inode _) fun i hfile => hput.others i fun heq =>
        h.file_ne hcurrent path (heq ▸ hfile)
    simpa only [hread] using h.intact path
  · intro c hc
    obtain rfl := Option.some.inj hc
    refine ⟨?_, ?_, hput.atEnd hend hgood, hgood, fun hclosed => by cases hclosed⟩
    · dsimp only
      rw [hput.inode, hput.fd]
      exact hholds.temp
    · dsimp only
      rw [hput.fd, (hput.written hgood).2.1, List.append_assoc]
      exact hholds.written
  · have hother := h.holds w' c hc
    have hne := h.fd_ne hcurrent hc hw
    refine ⟨?_, ?_, ?_, hother.good, hother.finished⟩
    · rw [hput.inode]
      exact hother.temp
    · rw [hput.others _ hne]
      exact hother.written
    · rw [hput.others _ hne]
      exact hother.atEnd

omit [DecidableEq φ] in
theorem Inv.close (h : s.Inv before jobs) {job : Replacement φ} {stream : Stream}
    (hcurrent : s.current w = some { job, rest := [], stream }) :
    Inv before jobs { s with
      current := s.moved w (some { job, rest := [], stream, closed := true }) } := by
  have hholds := h.holds w _ hcurrent
  refine h.goesOn ?_ h.intact ?_ fun w' c _ hc => h.holds w' c hc
  · intro c hc
    obtain rfl := Option.some.inj hc
    exact ⟨_, hcurrent, rfl⟩
  · intro c hc
    obtain rfl := Option.some.inj hc
    exact ⟨hholds.temp, hholds.written, hholds.atEnd, hholds.good, fun _ => rfl⟩

/-- A process renames what it wrote itself. -/
theorem Inv.rename (h : s.Inv before jobs) {job : Replacement φ} {rest : List Bytes}
    {stream : Stream} (hcurrent : s.current w = some { job, rest, stream, closed := true }) :
    Inv before jobs { s with
      disk := (s.disk.rename (.temp job.path) (.file job.path)).getD s.disk
      current := s.moved w none } := by
  have hholds := h.holds w _ hcurrent
  obtain ⟨d, hrename, hfile, -, hothers, hbytes⟩ :=
    Directory.rename_spec hholds.temp (show FileName.temp job.path ≠ .file job.path by simp)
  rw [hrename, Option.getD_some]
  refine h.goesOn (fun c hc => by cases hc) (fun path => ?_) (fun c hc => by cases hc) ?_
  · by_cases hpath : path = job.path
    · -- the file was closed, and is all that was to be written
      have hall := hholds.written
      rw [hholds.finished rfl, List.flatten_nil, List.append_nil] at hall
      refine .inr (.inr ⟨w, job, h.job w _ hcurrent, hpath.symm, ?_⟩)
      dsimp only
      rw [hpath, Directory.read, hfile, Option.map_some, hbytes, hall]
    · have hread : d.read (.file path) = s.disk.read (.file path) :=
        Directory.read_congr (hothers _ (by simp) (by simpa using hpath)) fun i _ =>
          congrFun hbytes i
      simpa only [hread] using h.intact path
  · intro w' c hw hc
    have hother := h.holds w' c hc
    have hne : c.job.path ≠ job.path := fun heq => hw (h.apart w' w c _ hc hcurrent heq)
    refine ⟨?_, ?_, ?_, hother.good, hother.finished⟩
    · rw [hothers _ (by simpa using hne) (by simp)]
      exact hother.temp
    · rw [hbytes]
      exact hother.written
    · rw [hbytes]
      exact hother.atEnd

/-- The step lemma. -/
theorem Inv.step (h : s.Inv before jobs) {l : Label ω} (halone : s.Alone l)
    (hs : Writers.step s l = some s') : s'.Inv before jobs := by
  cases l with
  | openTemp w => exact h.openTemp halone hs
  | write w =>
      obtain ⟨job, data, rest, stream, hcurrent, rfl⟩ := step_write hs
      exact h.write hcurrent
  | close w =>
      obtain ⟨job, stream, hcurrent, rfl⟩ := step_close hs
      exact h.close hcurrent
  | rename w =>
      obtain ⟨job, rest, stream, hcurrent, rfl⟩ := step_rename hs
      exact h.rename hcurrent

/-- **Files stay whole** in every run in which no process opens a temporary file while
another one is between its open and its rename of it. -/
theorem files_intact (disk : Disk φ) (jobs : ω → List (Replacement φ)) (labels : List (Label ω))
    (s : Writers ω φ) (hrun : (writers disk jobs).run labels = some s)
    (halone : (writers disk jobs).each Alone (writers disk jobs).init labels) :
    s.Intact disk jobs := by
  -- at the beginning no process is at work
  have hinit : Inv disk jobs (writers disk jobs).init := by
    refine ⟨fun _ => .inr (.inl rfl), fun _ _ hj => hj, ?_, ?_, ?_⟩
    · intro w c hc
      cases hc
    · intro w c hc
      cases hc
    · intro w w' c c' hc
      cases hc
  have hinv : Inv disk jobs s := by
    refine System.runFrom_invariant (I := Inv disk jobs) ?_ hinit hrun halone
    intro s l s' h hcond hs
    exact h.step hcond hs
  exact hinv.intact

/-! ### One process -/

omit [DecidableEq φ] in
theorem good_writeAll (k : Nat) (pieces : List Bytes) (d : Disk φ) (st : Stream) :
    (writeAll (fun _ => none) k pieces d st).2.good = st.good := by
  induction pieces generalizing k d st with
  | nil => rfl
  | cons data rest ih =>
      rw [writeAll]
      dsimp only
      rw [ih, Stream.put]
      split_ifs <;> rfl

theorem runFrom_writes (disk : Disk φ) {s : Writers ω φ} {w : ω} {job : Replacement φ}
    {rest : List Bytes} {stream : Stream} (k : Nat)
    (hcurrent : s.current w = some { job, rest, stream }) : ∃ s',
      (writers disk jobs).runFrom s (List.replicate rest.length (.write w)) = some s' ∧
      s'.disk = (writeAll (fun _ => none) k rest s.disk stream).1 ∧
      s'.current w = some
        { job, rest := [], stream := (writeAll (fun _ => none) k rest s.disk stream).2 } := by
  induction rest generalizing s stream k with
  | nil => exact ⟨s, rfl, rfl, hcurrent⟩
  | cons data rest ih =>
      let next : Writing φ := { job, rest, stream := (stream.put s.disk data none).2 }
      let s₁ : Writers ω φ :=
        { s with disk := (stream.put s.disk data none).1, current := s.moved w (some next) }
      have hstep : (writers disk jobs).step s (.write w) = some s₁ := by
        simp only [writers, step, hcurrent]
        rfl
      have hnext : s₁.current w = some next := moved_self s w _
      obtain ⟨s', hrun, hdisk, hlast⟩ := ih (k + 1) hnext
      refine ⟨s', ?_, hdisk, hlast⟩
      rw [List.length_cons, List.replicate_succ, System.runFrom, hstep, Option.bind_some, hrun]

/-- A process that nobody disturbs does what `replaceFile` does. -/
theorem runFrom_alone (disk : Disk φ) {s : Writers ω φ} {w : ω} {job : Replacement φ}
    {todo : List (Replacement φ)} (hidle : s.current w = none) (htodo : s.todo w = job :: todo) :
    ∃ s', (writers disk jobs).runFrom s (.openTemp w ::
        (List.replicate job.pieces.length (.write w) ++ [.close w, .rename w])) = some s' ∧
      s'.disk = (replaceFile {} job.path job.pieces s.disk).2 := by
  let opened := s.disk.openTruncate (.temp job.path)
  let s₁ : Writers ω φ := {
    disk := opened.1
    todo := Function.update s.todo w todo
    current := s.moved w (some { job, rest := job.pieces, stream := { fd := opened.2 } }) }
  have hopen : (writers disk jobs).step s (.openTemp w) = some s₁ := by
    simp only [writers, step, hidle, htodo]
    rfl
  have hopened : s₁.current w = some { job, rest := job.pieces, stream := { fd := opened.2 } } :=
    moved_self s w _
  obtain ⟨s₂, hwrites, hdisk, hcurrent⟩ := runFrom_writes disk 0 hopened
  let wrote := writeAll (fun _ => none) 0 job.pieces opened.1 { fd := opened.2 }
  let s₃ : Writers ω φ := { s₂ with
    current := s₂.moved w (some { job, rest := [], stream := wrote.2, closed := true }) }
  have hclose : (writers disk jobs).step s₂ (.close w) = some s₃ := by
    simp only [writers, step, hcurrent]
    rfl
  have hclosed : s₃.current w = some { job, rest := [], stream := wrote.2, closed := true } :=
    moved_self s₂ w _
  let s₄ : Writers ω φ := { s₃ with
    disk := (s₃.disk.rename (.temp job.path) (.file job.path)).getD s₃.disk
    current := s₃.moved w none }
  have hrename : (writers disk jobs).step s₃ (.rename w) = some s₄ := by
    simp only [writers, step, hclosed]
    rfl
  refine ⟨s₄, ?_, ?_⟩
  · rw [System.runFrom, hopen, Option.bind_some, System.runFrom_append, hwrites, Option.bind_some,
      System.runFrom, hclose, Option.bind_some, System.runFrom, hrename]
    rfl
  · have htemp : writeTemp {} job.path job.pieces s.disk = (s₂.disk, wrote.2) :=
      Prod.ext hdisk.symm rfl
    have hgood : wrote.2.good = true := good_writeAll 0 job.pieces opened.1 _
    change (s₂.disk.rename (.temp job.path) (.file job.path)).getD s₂.disk = _
    rw [replaceFile, htemp]
    dsimp only
    rw [hgood]
    cases s₂.disk.rename (.temp job.path) (.file job.path) <;> rfl

end Writers

/-! ### Two learning rounds -/

inductive RoundFile where
  | learnedWords
  | personalNgram
  | rimeDict
  deriving DecidableEq, Repr

/-- The files of a learning round, in the order it writes them. -/
def roundJobs (hash : Visit) (table : NgramTable) (words : List DiscoveredWord)
    (time : IsoTimestamp) : List (Replacement RoundFile) := [
  ⟨.learnedWords, generatePieces time words⟩,
  ⟨.personalNgram, table.pieces hash⟩,
  ⟨.rimeDict, rimePieces (ascii "dafeng_learned") time time words⟩]

inductive Process where
  | daemon
  | cli
  deriving DecidableEq, Repr

namespace Writers

/-- Two processes save the table of nothing. -/
def savingEmpty : System (Writers Process RoundFile) (Label Process) :=
  writers .empty fun _ => [⟨.personalNgram, NgramTable.pieces .stored ∅⟩]

/-- One after the other, the files stay whole. -/
theorem files_intact_inTurn : ∃ s, savingEmpty.run [.openTemp .daemon, .write .daemon,
      .write .daemon, .write .daemon, .close .daemon, .rename .daemon, .openTemp .cli] = some s ∧
    s.Intact .empty fun _ => [⟨.personalNgram, NgramTable.pieces .stored ∅⟩] := by
  refine ⟨_, rfl, files_intact .empty _ [.openTemp .daemon, .write .daemon, .write .daemon,
    .write .daemon, .close .daemon, .rename .daemon, .openTemp .cli] _ rfl ?_⟩
  rw [System.each_cons _ rfl, System.each_cons _ rfl, System.each_cons _ rfl,
    System.each_cons _ rfl, System.each_cons _ rfl, System.each_cons _ rfl, System.each_cons _ rfl]
  refine ⟨?_, trivial, trivial, trivial, trivial, trivial, ?_, trivial⟩
  · intro job _ w c _ hc
    cases hc
  · intro job _ w c hw hc
    cases w with
    | daemon => cases hc
    | cli => exact absurd rfl hw

/-- The daemon wrote its file, and renames it when the other process has just opened it
again. -/
def renamedAnothers : List (Label Process) :=
  [.openTemp .daemon] ++ List.replicate 13 (.write .daemon) ++
    [.close .daemon, .openTemp .cli, .rename .daemon]

/-- The file of learned words is empty then, which neither of the two wrote. -/
theorem file_truncated : ¬ ∀ s,
    (writers .empty fun _ : Process => roundJobs .stored ∅ [] someTime).run renamedAnothers =
      some s → s.Intact .empty fun _ => roundJobs .stored ∅ [] someTime := by
  intro hall
  have hmap : ((writers .empty fun _ : Process => roundJobs .stored ∅ [] someTime).run
      renamedAnothers).map (fun s => s.disk.read (.file .learnedWords)) = some (some []) := by
    decide
  obtain ⟨s, hrun, hread⟩ := Option.map_eq_some_iff.mp hmap
  rcases hall s hrun .learnedWords with hnone | hbefore | ⟨w, job, hjob, hpath, hwhole⟩
  · rw [hread] at hnone
    cases hnone
  · rw [hread] at hbefore
    cases hbefore
  · rw [hread] at hwhole
    have hnonempty : ∀ job ∈ roundJobs .stored ∅ [] someTime, job.pieces.flatten ≠ [] := by decide
    exact hnonempty job hjob (Option.some.inj hwhole).symm

end Writers

end Dafeng.Learning

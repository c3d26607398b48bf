import HTWGArchive.Library.JavaInt

namespace CopyFile

open JavaInt

-- What the system calls answer. `read` and `write` are asked with the number of calls made so far,
-- the number of bytes that are requested and, for `read`, the number of bytes left in the file.
structure Kernel where
  openIn : Int
  openOut : Int
  malloc : Bool
  read : ℕ → ℕ → ℕ → Int
  write : ℕ → ℕ → Int

structure State where
  buffer : List UInt8
  input : List UInt8
  output : List UInt8
  calls : ℕ
  deriving DecidableEq, Repr

-- The call puts `count` bytes at the start of the buffer and leaves the rest of it as it was.
def State.read (k : Kernel) (σ : State) : State × Int :=
  let count := k.read σ.calls σ.buffer.length σ.input.length
  ({ σ with
      buffer := σ.input.take count.toNat ++ σ.buffer.drop count.toNat
      input := σ.input.drop count.toNat
      calls := σ.calls + 1 }, int count)

def State.write (k : Kernel) (σ : State) (offset n : Int) : State × Int :=
  let tmp := k.write σ.calls n.toNat
  ({ σ with
      output := σ.output ++ (σ.buffer.drop offset.toNat).take tmp.toNat
      calls := σ.calls + 1 }, int tmp)

-- The second component is false where the code goes to `failed_action`.
def writeLoop (k : Kernel) (count : Int) : ℕ → State → Int → Option (State × Bool)
  | 0, _, _ => none
  | fuel + 1, σ, ret =>
    if ret ≠ count then
      let (σ, tmp) := σ.write k ret (count - ret)
      if tmp = -1 then some (σ, false)
      else writeLoop k count fuel σ (int (ret + tmp))
    else some (σ, true)

def copyLoop (k : Kernel) : ℕ → State → Option (State × Int)
  | 0, _ => none
  | fuel + 1, σ =>
    let (σ, count) := σ.read k
    if count = -1 then some (σ, -1)
    else
      match writeLoop k count fuel σ 0 with
      | none => none
      | some (σ, false) => some (σ, -1)
      | some (σ, true) => if count ≠ 0 then copyLoop k fuel σ else some (σ, 0)

-- The contents of the output file after the call and the value returned. The buffer comes from
-- `malloc` with arbitrary contents.
def copyFile (k : Kernel) (fuel : ℕ) (infilename outfilename : Option String)
    (buffer input output : List UInt8) : Option (List UInt8 × Int) :=
  if infilename = none ∨ outfilename = none then some (output, 0)
  else if k.openIn < 0 then some (output, -1)
  else if k.openOut < 0 then some (output, -1)
  else if k.malloc then
    (copyLoop k fuel ⟨buffer, input, [], 0⟩).map (fun x => (x.1.output, x.2))
  else some ([], -1)

-- No call fails, and a transfer has at least one byte unless the file has ended.
structure Kernel.Serves (k : Kernel) : Prop where
  openIn : 0 ≤ k.openIn
  openOut : 0 ≤ k.openOut
  malloc : k.malloc = true
  read : ∀ call n left, 0 < n → 0 < left →
    1 ≤ k.read call n left ∧ k.read call n left ≤ n ∧ k.read call n left ≤ left
  atEnd : ∀ call n, k.read call n 0 = 0
  write : ∀ call n, 0 < n → 1 ≤ k.write call n ∧ k.write call n ≤ n

variable {k : Kernel} {σ : State} {fuel : ℕ}

theorem int_small {n : ℕ} (hn : n < 2 ^ 31) : int n = n := by
  apply int_eq
  · unfold minValue
    omega
  · unfold maxValue
    omega

theorem Kernel.Serves.written (hk : k.Serves) (σ : State) {ret count : ℕ} (hret : ret < count)
    (hcount : count < 2 ^ 31) :
    ∃ tmp : ℕ, 1 ≤ tmp ∧ ret + tmp ≤ count ∧
      σ.write k ret (count - ret) =
        ({ σ with output := σ.output ++ (σ.buffer.drop ret).take tmp, calls := σ.calls + 1 },
          (tmp : Int)) := by
  have hsize : ((count : Int) - ret).toNat = count - ret := by omega
  have hanswer := hk.write σ.calls (count - ret) (by omega)
  obtain ⟨tmp, htmp⟩ := Int.eq_ofNat_of_zero_le (show 0 ≤ k.write σ.calls (count - ret) by omega)
  rw [htmp] at hanswer
  refine ⟨tmp, by omega, by omega, ?_⟩
  simp only [State.write, hsize, htmp, Int.toNat_natCast, int_small (show tmp < 2 ^ 31 by omega)]

theorem take_drop_split (buffer : List UInt8) {ret tmp count : ℕ} (h : ret + tmp ≤ count) :
    (buffer.take count).drop ret =
      (buffer.drop ret).take tmp ++ (buffer.take count).drop (ret + tmp) := by
  rw [List.drop_take, List.drop_take, ← List.drop_drop, ← List.take_add]
  congr 1
  omega

-- Bytes `ret` to `count` of the buffer are appended to the output.
theorem Kernel.Serves.writeLoop (hk : k.Serves) {ret count : ℕ} (hret : ret ≤ count)
    (hcount : count < 2 ^ 31) (hfuel : count - ret < fuel) :
    ∃ calls, writeLoop k count fuel σ ret =
      some ({ σ with
        output := σ.output ++ (σ.buffer.take count).drop ret
        calls := calls }, true) := by
  induction fuel generalizing σ ret with
  | zero => omega
  | succ fuel ih =>
    rw [CopyFile.writeLoop]
    rcases Nat.eq_or_lt_of_le hret with rfl | hlt
    · refine ⟨σ.calls, ?_⟩
      rw [if_neg (by simp)]
      simp
    · obtain ⟨tmp, htmp, hle, hwrite⟩ := hk.written σ hlt hcount
      have hne : (ret : Int) ≠ count := by omega
      have hok : (tmp : Int) ≠ -1 := by omega
      have hnext : int (ret + tmp) = ((ret + tmp : ℕ) : Int) := by
        rw [← Nat.cast_add]
        exact int_small (by omega)
      rw [if_pos hne, hwrite]
      simp only [if_neg hok, hnext]
      obtain ⟨calls, hrest⟩ := ih (σ := { σ with
        output := σ.output ++ (σ.buffer.drop ret).take tmp, calls := σ.calls + 1 }) hle (by omega)
      refine ⟨calls, ?_⟩
      rw [hrest, take_drop_split σ.buffer hle, List.append_assoc]

-- A call moves the next bytes of the file to the start of the buffer.
theorem Kernel.Serves.haveRead (hk : k.Serves) (σ : State) (hsize : 0 < σ.buffer.length)
    (hint : σ.buffer.length < 2 ^ 31) :
    ∃ count buffer, (count = 0 ↔ σ.input = []) ∧ count ≤ σ.buffer.length ∧
      count ≤ σ.input.length ∧ buffer.length = σ.buffer.length ∧
      buffer.take count = σ.input.take count ∧
      σ.read k =
        ({ σ with buffer := buffer, input := σ.input.drop count, calls := σ.calls + 1 },
          (count : Int)) := by
  cases hinput : σ.input with
  | nil =>
    refine ⟨0, σ.buffer, by simp, by omega, by simp, rfl, by simp, ?_⟩
    simp [State.read, hinput, hk.atEnd]
    decide
  | cons b input =>
    have hleft : 0 < σ.input.length := by simp [hinput]
    have hanswer := hk.read σ.calls σ.buffer.length σ.input.length hsize hleft
    obtain ⟨count, hcount⟩ := Int.eq_ofNat_of_zero_le
      (show 0 ≤ k.read σ.calls σ.buffer.length σ.input.length by omega)
    rw [hcount] at hanswer
    rw [← hinput]
    have htake : (σ.input.take count).length = count := by
      rw [List.length_take]
      omega
    refine ⟨count, σ.input.take count ++ σ.buffer.drop count, ?_, by omega, by omega, ?_, ?_, ?_⟩
    · simp [hinput]
      omega
    · rw [List.length_append, htake, List.length_drop]
      omega
    · rw [List.take_left' htake]
    · simp only [State.read, hcount, Int.toNat_natCast,
        int_small (show count < 2 ^ 31 by omega)]

theorem Kernel.Serves.copyLoop (hk : k.Serves) (hsize : 0 < σ.buffer.length)
    (hint : σ.buffer.length < 2 ^ 31) (hfuel : σ.input.length + 2 ≤ fuel) :
    ∃ σ', copyLoop k fuel σ = some (σ', 0) ∧ σ'.output = σ.output ++ σ.input := by
  induction fuel generalizing σ with
  | zero => omega
  | succ fuel ih =>
    obtain ⟨count, buffer, hend, hle, hleft, hlength, htake, hread⟩ := hk.haveRead σ hsize hint
    have hok : (count : Int) ≠ -1 := by omega
    obtain ⟨calls, hwrite⟩ := hk.writeLoop
      (σ := { σ with buffer := buffer, input := σ.input.drop count, calls := σ.calls + 1 })
      (Nat.zero_le count) (by omega) (show count - 0 < fuel by omega)
    rw [Nat.cast_zero, List.drop_zero, htake] at hwrite
    rw [CopyFile.copyLoop, hread]
    simp only [if_neg hok, hwrite]
    rcases Nat.eq_zero_or_pos count with hzero | hpos
    · subst hzero
      refine ⟨_, if_neg (by simp), ?_⟩
      simp [hend.mp rfl]
    · rw [if_pos (by omega)]
      obtain ⟨σ', hrun, hout⟩ := ih (σ := { σ with
        buffer := buffer, input := σ.input.drop count, calls := calls
        output := σ.output ++ σ.input.take count }) (hsize.trans_eq hlength.symm)
        (hlength.trans_lt hint) (by simp; omega)
      refine ⟨σ', hrun, ?_⟩
      rw [hout, List.append_assoc, List.take_append_drop]

theorem copyFile_copies (hk : k.Serves) (infilename outfilename : String)
    {buffer : List UInt8} (hsize : 1 ≤ buffer.length) (hint : buffer.length < 2 ^ 31)
    (input output : List UInt8) (hfuel : input.length + 2 ≤ fuel) :
    copyFile k fuel (some infilename) (some outfilename) buffer input output = some (input, 0) := by
  obtain ⟨σ', hrun, hout⟩ := hk.copyLoop (σ := ⟨buffer, input, [], 0⟩) hsize hint hfuel
  have hin := hk.openIn
  have hopen := hk.openOut
  rw [copyFile, if_neg (by simp), if_neg (by omega), if_neg (by omega), if_pos hk.malloc, hrun,
    Option.map_some, hout, List.nil_append]

-- Every transfer moves a single byte.
def slow : Kernel where
  openIn := 3
  openOut := 4
  malloc := true
  read := fun _ n left => min 1 (min n left)
  write := fun _ n => min 1 n

theorem slow_serves : slow.Serves where
  openIn := by decide
  openOut := by decide
  malloc := rfl
  read call n left hn hleft := by
    simp only [slow]
    omega
  atEnd call n := by
    simp only [slow]
    omega
  write call n hn := by
    simp only [slow]
    omega

theorem copyFile_slow :
    copyFile slow 5 (some "/tmp/foo") (some "/tmp/copy") [0, 0] [7, 8, 9] [1] =
      some ([7, 8, 9], 0) :=
  copyFile_copies slow_serves "/tmp/foo" "/tmp/copy" (by decide) (by decide) [7, 8, 9] [1]
    (by decide)

end CopyFile

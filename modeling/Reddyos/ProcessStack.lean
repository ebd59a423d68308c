import Reddyos.Elf

/-! The stack that `setup_process_stack` builds for a new process, and what the C library of
the process reads there. -/
namespace Reddyos

open ByteMemory

/-- What `setup_process_stack` reads of `process_t`. The pages from `userStackBottom` up to
`rsp` are mapped. -/
structure StackOwner where
  pid : U64
  entryPoint : U64
  rsp : U64
  userStackBottom : U64

structure UserStack where
  mem : Mem
  sp : U64

def atNull : U64 := 0#64
def atPhdr : U64 := 3#64
def atPhent : U64 := 4#64
def atPhnum : U64 := 5#64
def atPagesz : U64 := 6#64
def atEntry : U64 := 9#64
def atRandom : U64 := 25#64
def atExecfn : U64 := 31#64

def textBytes (text : String) : List (BitVec 8) := text.toList.map fun c => BitVec.ofNat 8 c.toNat

def processDefaultEnv : List (List (BitVec 8)) :=
  [textBytes "PATH=/bin:/usr/bin:/usr/local/bin",textBytes "HOME=/",textBytes "PWD=/",
    textBytes "TERM=linux",textBytes "USER=root"]

/-- A store to the stack; the kernel does not survive one below the pages that are mapped. -/
def stackStore (p : StackOwner) (a : U64) (data : Nat → BitVec 8) (n : Nat) (m : Mem) : Except Stop Mem :=
  if p.userStackBottom.toNat ≤ a.toNat ∧ a.toNat + n ≤ p.rsp.toNat then .ok (copy m a.toNat data n)
  else .error .undefined

def pushU64 (p : StackOwner) (value : U64) (s : UserStack) : Except Stop UserStack := do
  let mem ← stackStore p (s.sp - 8#64) (byteOf value) 8 s.mem
  return ⟨mem,s.sp - 8#64⟩

def pushPtr (p : StackOwner) (ptr : U64) (s : UserStack) : Except Stop UserStack := pushU64 p ptr s

def pushAuxv (p : StackOwner) (type value : U64) (s : UserStack) : Except Stop UserStack := do
  let s ← pushU64 p value s
  pushU64 p type s

def stringByte (text : List (BitVec 8)) (i : Nat) : BitVec 8 := text.getD i 0#8

def pushString (p : StackOwner) (text : List (BitVec 8)) (s : UserStack) : Except Stop (U64 × UserStack) := do
  let bytes := s.sp - BitVec.ofNat 64 (text.length + 1)
  let mem ← stackStore p bytes (stringByte text) (text.length + 1) s.mem
  return (bytes,⟨mem,bytes⟩)

def pushStrings (p : StackOwner) : List (List (BitVec 8)) → UserStack → Except Stop (List U64 × UserStack)
  | [], s => return ([],s)
  | text :: rest, s => do
    let (ptr,s) ← pushString p text s
    let (ptrs,s) ← pushStrings p rest s
    return (ptr :: ptrs,s)

def pushDefaultEnvStrings (p : StackOwner) (s : UserStack) : Except Stop (List U64 × UserStack) :=
  pushStrings p processDefaultEnv s

def xorshift (rnd : U64) : U64 :=
  let rnd := rnd ^^^ (rnd <<< 13)
  let rnd := rnd ^^^ (rnd >>> 7)
  rnd ^^^ (rnd <<< 17)

def pushPtrs (p : StackOwner) : List U64 → UserStack → Except Stop UserStack
  | [], s => return s
  | ptr :: rest, s => do
    let s ← pushPtr p ptr s
    pushPtrs p rest s

/-- The auxiliary vector, its terminator first. -/
def pushAuxvs (p : StackOwner) (info : ElfInfo) (progNamePtr randomPtr : U64) (s : UserStack) :
    Except Stop UserStack := do
  let s ← pushAuxv p atNull 0#64 s
  let s ← pushAuxv p atExecfn progNamePtr s
  let s ← pushAuxv p atRandom randomPtr s
  let s ← pushAuxv p atEntry p.entryPoint s
  let s ← pushAuxv p atPagesz 4096#64 s
  let s ← pushAuxv p atPhnum (info.phnum.setWidth 64) s
  let s ← pushAuxv p atPhent (info.phentsize.setWidth 64) s
  pushAuxv p atPhdr info.phdr s

/-- `envp`, `argv` and `argc`, with a padding word in front when their number is odd. -/
def pushArguments (p : StackOwner) (progNamePtr : U64) (envPtrs : List U64) (s : UserStack) :
    Except Stop UserStack := do
  let remainingPointerPushes := 4 + envPtrs.length
  let s ← if remainingPointerPushes % 2 = 1 then pushU64 p 0#64 s else pure s
  let s ← pushPtr p 0#64 s
  let s ← pushPtrs p envPtrs.reverse s
  let s ← pushPtr p 0#64 s
  let s ← pushPtr p progNamePtr s
  pushU64 p 1#64 s

/-- The two words behind `AT_RANDOM`; `uptime` is `ns_since_boot()`. -/
def pushRandom (p : StackOwner) (uptime : U64) (s : UserStack) : Except Stop UserStack := do
  let s ← pushU64 p 0#64 s
  let s ← pushU64 p 0#64 s
  let seed := uptime ^^^ p.pid ^^^ p.entryPoint ^^^ p.rsp
  let rnd := xorshift (if seed ≠ 0#64 then seed else 0xdeadbeefcafebabe#64)
  let mem ← stackStore p s.sp (byteOf rnd) 8 s.mem
  let mem ← stackStore p (s.sp + 8#64) (byteOf (xorshift rnd)) 8 mem
  return { s with mem := mem }

def setupProcessStack (p : StackOwner) (filename : List (BitVec 8)) (info : ElfInfo) (uptime : U64) (m : Mem) :
    Except Stop (U64 × Mem) := do
  let (progNamePtr,s) ← pushString p filename ⟨m,p.rsp⟩
  let (envPtrs,s) ← pushDefaultEnvStrings p s
  let s ← pushRandom p uptime { s with sp := s.sp &&& ~~~0xF#64 }
  let randomPtr := s.sp
  let s ← pushAuxvs p info progNamePtr randomPtr s
  let s ← pushArguments p progNamePtr envPtrs s
  return (s.sp,s.mem)

def wordsAt (m : Mem) : Nat → Nat → List U64
  | _, 0 => []
  | a, n + 1 => load64 m a :: wordsAt m (a + 8) n

def StringAt (m : Mem) (text : List (BitVec 8)) (a : U64) : Prop :=
  ∀ i ≤ text.length, m (a.toNat + i) = stringByte text i

def auxiliaryVector (p : StackOwner) (info : ElfInfo) (name random : U64) : List U64 :=
  [atPhdr,info.phdr,atPhent,info.phentsize.setWidth 64,atPhnum,info.phnum.setWidth 64,atPagesz,4096#64,
    atEntry,p.entryPoint,atRandom,random,atExecfn,name,atNull,0#64]

/-- The process entry layout, read upwards from `rsp`, with `padding` between the
environment and the auxiliary vector. -/
structure EntryLayout (padding : List U64) (p : StackOwner) (filename : List (BitVec 8)) (info : ElfInfo) (m : Mem)
    (rsp : U64) : Prop where
  aligned : rsp.toNat % 16 = 0
  words : ∃ name random env, wordsAt m rsp.toNat (25 + padding.length) =
      [1#64,name,0#64] ++ env ++ [0#64] ++ padding ++ auxiliaryVector p info name random ∧
    StringAt m filename name ∧ List.Forall₂ (StringAt m) processDefaultEnv env

variable {p : StackOwner} {s next last : UserStack} {value ptr : U64} {values ptrs : List U64}
variable {text filename : List (BitVec 8)} {texts : List (List (BitVec 8))}

structure Below (s next : UserStack) : Prop where
  down : next.sp.toNat ≤ s.sp.toNat
  kept : ∀ b, s.sp.toNat ≤ b → next.mem b = s.mem b

theorem Below.trans (first : Below s next) (second : Below next last) : Below s last where
  down := Nat.le_trans second.down first.down
  kept := fun b above => (second.kept b (Nat.le_trans first.down above)).trans (first.kept b above)

theorem stackStore_ok (returns : stackStore p a data n m = .ok m') :
    a.toNat + n ≤ p.rsp.toNat ∧ m' = copy m a.toNat data n := by
  unfold stackStore at returns
  split at returns
  · rename_i inside
    exact ⟨inside.2,(Except.ok.inj returns).symm⟩
  · cases returns

theorem pushU64_spec (returns : pushU64 p value s = .ok next) :
    next.sp.toNat + 8 = s.sp.toNat ∧ next.mem = store64 s.mem next.sp.toNat value ∧ Below s next := by
  obtain ⟨mem,stored,returns⟩ := ok_of_bind returns
  obtain rfl := Except.ok.inj returns
  obtain ⟨inside,rfl⟩ := stackStore_ok stored
  have top := p.rsp.isLt
  have moved : (s.sp - 8#64).toNat + 8 = s.sp.toNat := by bv_omega
  refine ⟨moved,rfl,⟨by dsimp only; omega,fun b above => copy_outside (by omega)⟩⟩

theorem wordsAt_congr (same : ∀ b, a ≤ b → m' b = m b) (n : Nat) : wordsAt m' a n = wordsAt m a n := by
  induction n generalizing a with
  | zero => rfl
  | succ n ih =>
    unfold wordsAt
    rw [ih (fun b above => same b (by omega)),load64_congr fun i _ => same (a + i) (by omega)]

/-- Words pushed one after another are read in the opposite order. -/
theorem pushPtrs_spec (returns : pushPtrs p values s = .ok next) :
    next.sp.toNat + 8 * values.length = s.sp.toNat ∧ Below s next ∧
      ∀ n, wordsAt next.mem next.sp.toNat (values.length + n) = values.reverse ++ wordsAt s.mem s.sp.toNat n := by
  induction values generalizing s with
  | nil =>
    obtain rfl := Except.ok.inj returns
    exact ⟨by simp,⟨Nat.le_refl _,fun _ _ => rfl⟩,fun n => by simp⟩
  | cons value values ih =>
    obtain ⟨first,pushed,returns⟩ := ok_of_bind returns
    obtain ⟨moved,stored,below⟩ := pushU64_spec pushed
    obtain ⟨later,below',words⟩ := ih returns
    refine ⟨by rw [List.length_cons]; omega,below.trans below',fun n => ?_⟩
    have here : wordsAt first.mem first.sp.toNat (n + 1) = value :: wordsAt s.mem s.sp.toNat n := by
      change load64 first.mem first.sp.toNat :: wordsAt first.mem (first.sp.toNat + 8) n = _
      rw [moved,wordsAt_congr below.kept,stored,load64_store64_same]
    have count : (value :: values).length + n = values.length + (n + 1) := by
      rw [List.length_cons]
      omega
    rw [count,words (n + 1),here,List.reverse_cons,List.append_assoc]
    rfl

theorem pushPtrs_append (first second : List U64) (s : UserStack) :
    pushPtrs p (first ++ second) s = pushPtrs p first s >>= pushPtrs p second := by
  induction first generalizing s with
  | nil => rfl
  | cons value first ih =>
    change (pushPtr p value s >>= pushPtrs p (first ++ second)) = _
    change _ = (pushPtr p value s >>= pushPtrs p first) >>= pushPtrs p second
    rw [bind_assoc]
    exact congrArg _ (funext ih)

theorem StringAt.below (string : StringAt s.mem text ptr) (above : s.sp.toNat ≤ ptr.toNat) (below : Below s next) :
    StringAt next.mem text ptr := by
  intro i inside
  rw [below.kept _ (by omega)]
  exact string i inside

theorem pushString_spec (returns : pushString p text s = .ok (ptr,next)) :
    ptr = next.sp ∧ StringAt next.mem text ptr ∧ Below s next := by
  obtain ⟨mem,stored,returns⟩ := ok_of_bind returns
  obtain ⟨rfl,rfl⟩ := ok_pair returns
  obtain ⟨inside,rfl⟩ := stackStore_ok stored
  have top := p.rsp.isLt
  have length : (BitVec.ofNat 64 (text.length + 1)).toNat = text.length + 1 := by
    rw [BitVec.toNat_ofNat]
    exact Nat.mod_eq_of_lt (by omega)
  have moved : (s.sp - BitVec.ofNat 64 (text.length + 1)).toNat + (text.length + 1) = s.sp.toNat := by
    generalize BitVec.ofNat 64 (text.length + 1) = len at *
    bv_omega
  refine ⟨rfl,fun i bound => ?_,⟨by dsimp only; omega,fun b above => copy_outside (by omega)⟩⟩
  dsimp only
  rw [copy_inside (by omega) (by omega),Nat.add_sub_cancel_left]

def StringsAt (s : UserStack) (texts : List (List (BitVec 8))) (ptrs : List U64) : Prop :=
  List.Forall₂ (fun text ptr => StringAt s.mem text ptr ∧ s.sp.toNat ≤ ptr.toNat) texts ptrs

theorem StringsAt.below (strings : StringsAt s texts ptrs) (below : Below s next) : StringsAt next texts ptrs := by
  refine List.Forall₂.imp (fun text ptr here => ?_) strings
  exact ⟨here.1.below here.2 below,Nat.le_trans below.down here.2⟩

theorem pushStrings_spec (returns : pushStrings p texts s = .ok (ptrs,next)) :
    StringsAt next texts ptrs ∧ Below s next := by
  induction texts generalizing s ptrs with
  | nil =>
    obtain ⟨rfl,rfl⟩ := ok_pair returns
    exact ⟨.nil,Nat.le_refl _,fun _ _ => rfl⟩
  | cons text texts ih =>
    obtain ⟨⟨ptr,first⟩,pushed,returns⟩ := ok_of_bind returns
    obtain ⟨⟨rest,final⟩,others,returns⟩ := ok_of_bind returns
    obtain ⟨rfl,rfl⟩ := ok_pair returns
    obtain ⟨rfl,string,below⟩ := pushString_spec pushed
    obtain ⟨strings,below'⟩ := ih others
    exact ⟨.cons ⟨string.below (Nat.le_refl _) below',below'.down⟩ strings,below.trans below'⟩

theorem pushAuxvs_eq : pushAuxvs p info name random s =
    pushPtrs p (auxiliaryVector p info name random).reverse s := by
  simp only [pushAuxvs,pushAuxv,auxiliaryVector,pushPtrs,pushPtr,List.reverse_cons,List.reverse_nil,List.nil_append,
    List.cons_append,bind_assoc,bind_pure]

/-- Five variables make the number of words odd. -/
theorem pushArguments_eq (five : ptrs.length = 5) : pushArguments p name ptrs s =
    pushPtrs p ([0#64,0#64] ++ ptrs.reverse ++ [0#64,name,1#64]) s := by
  unfold pushArguments
  rw [pushPtrs_append,pushPtrs_append,five,if_pos (by decide)]
  simp only [pushPtrs,pushPtr,bind_assoc,bind_pure]

theorem pushRandom_spec (returns : pushRandom p uptime s = .ok next) :
    next.sp.toNat + 16 = s.sp.toNat ∧ Below s next := by
  obtain ⟨first,pushed,returns⟩ := ok_of_bind returns
  obtain ⟨second,pushed',returns⟩ := ok_of_bind returns
  obtain ⟨m₁,stored,returns⟩ := ok_of_bind returns
  obtain ⟨m₂,stored',returns⟩ := ok_of_bind returns
  obtain rfl := Except.ok.inj returns
  obtain ⟨moved,_,below⟩ := pushU64_spec pushed
  obtain ⟨moved',_,below'⟩ := pushU64_spec pushed'
  obtain ⟨inside,rfl⟩ := stackStore_ok stored
  obtain ⟨_,rfl⟩ := stackStore_ok stored'
  have top := p.rsp.isLt
  have upper : (second.sp + 8#64).toNat = second.sp.toNat + 8 := by bv_omega
  refine ⟨by dsimp only; omega,⟨by dsimp only; omega,fun b above => ?_⟩⟩
  dsimp only
  rw [copy_outside (by omega),copy_outside (by omega)]
  exact (below.trans below').kept b above

/-- The stack that is built, padding word included. -/
theorem setupProcessStack_layout (returns : setupProcessStack p filename info uptime m = .ok (rsp,mem)) :
    EntryLayout [0#64] p filename info mem rsp := by
  obtain ⟨⟨name,s₁⟩,named,returns⟩ := ok_of_bind returns
  obtain ⟨⟨env,s₂⟩,strings,returns⟩ := ok_of_bind returns
  obtain ⟨s₃,randomized,returns⟩ := ok_of_bind returns
  obtain ⟨s₄,vector,returns⟩ := ok_of_bind returns
  obtain ⟨s₅,arguments,returns⟩ := ok_of_bind returns
  obtain ⟨rfl,rfl⟩ := ok_pair returns
  obtain ⟨rfl,nameString,_⟩ := pushString_spec named
  obtain ⟨envStrings,below₂⟩ := pushStrings_spec strings
  obtain ⟨moved,below₃⟩ := pushRandom_spec randomized
  have five : env.length = 5 := envStrings.length_eq.symm
  rw [pushAuxvs_eq] at vector
  rw [pushArguments_eq five] at arguments
  obtain ⟨length₄,below₄,words₄⟩ := pushPtrs_spec vector
  obtain ⟨length₅,below₅,words₅⟩ := pushPtrs_spec arguments
  have rounded := Words.toNat_and_not_low s₂.sp 4
  change (s₂.sp &&& ~~~15#64).toNat = _ at rounded
  have lower : Below s₂ ⟨s₂.mem,s₂.sp &&& ~~~15#64⟩ := by
    refine ⟨?_,fun _ _ => rfl⟩
    dsimp only
    omega
  have rest := ((lower.trans below₃).trans below₄).trans below₅
  dsimp only at moved
  simp only [List.length_reverse,List.length_append,List.length_cons,List.length_nil,five,auxiliaryVector]
    at length₄ length₅
  refine ⟨by omega,s₁.sp,s₃.sp,env,?_,nameString.below (Nat.le_refl _) (below₂.trans rest),?_⟩
  · have vectorWords : wordsAt s₄.mem s₄.sp.toNat 16 = auxiliaryVector p info s₁.sp s₃.sp := by
      have read := words₄ 0
      rw [List.reverse_reverse] at read
      simpa [auxiliaryVector,wordsAt] using read
    have order : ([0#64,0#64] ++ env.reverse ++ [0#64,s₁.sp,1#64]).reverse =
        [1#64,s₁.sp,0#64] ++ env ++ [0#64] ++ [0#64] := by simp
    have read := words₅ 16
    rw [vectorWords,order] at read
    simpa [five] using read
  · exact List.Forall₂.imp (fun _ _ here => here.1) (envStrings.below rest)

theorem getElem?_wordsAt (m : Mem) (a n i : Nat) :
    (wordsAt m a n)[i]? = if i < n then some (load64 m (a + 8 * i)) else none := by
  induction n generalizing a i with
  | zero => simp [wordsAt]
  | succ n ih =>
    unfold wordsAt
    cases i with
    | zero => simp
    | succ i =>
      rw [List.getElem?_cons_succ,ih,show a + 8 + 8 * i = a + 8 * (i + 1) by omega]
      simp

/-- The word behind the environment, with and without padding. -/
theorem EntryLayout.behind {padding : List U64} (layout : EntryLayout padding p filename info m rsp) :
    load64 m (rsp.toNat + 72) = (padding ++ [atPhdr]).headD 0#64 := by
  obtain ⟨name,random,env,words,_,strings⟩ := layout.words
  have five : env.length = 5 := strings.length_eq.symm
  have ninth := getElem?_wordsAt m rsp.toNat (25 + padding.length) 9
  rw [words,if_pos (by omega),List.append_assoc,List.getElem?_append_right (by simp [five])] at ninth
  simp only [List.length_append,List.length_cons,List.length_nil,five] at ninth
  cases padding with
  | nil => exact (Option.some.inj ninth).symm
  | cons word padding => exact (Option.some.inj ninth).symm

/-- A process never finds its auxiliary vector: the word behind the environment is the padding. -/
theorem entry_layout_never (p : StackOwner) (filename : List (BitVec 8)) (info : ElfInfo) (uptime : U64) (m : Mem) :
    ¬∃ rsp mem, setupProcessStack p filename info uptime m = .ok (rsp,mem) ∧
      EntryLayout [] p filename info mem rsp := by
  rintro ⟨rsp,mem,returns,layout⟩
  have padded := (setupProcessStack_layout returns).behind
  rw [layout.behind] at padded
  exact absurd padded (by decide)

theorem stackStore_returns (low : p.userStackBottom.toNat ≤ a.toNat) (high : a.toNat + n ≤ p.rsp.toNat) :
    stackStore p a data n m = .ok (copy m a.toNat data n) := if_pos ⟨low,high⟩

theorem pushU64_returns (low : p.userStackBottom.toNat + 8 ≤ s.sp.toNat) (high : s.sp.toNat ≤ p.rsp.toNat)
    (value : U64) : ∃ next, pushU64 p value s = .ok next := by
  have moved : (s.sp - 8#64).toNat + 8 = s.sp.toNat := by bv_omega
  refine ⟨⟨copy s.mem (s.sp - 8#64).toNat (byteOf value) 8,s.sp - 8#64⟩,?_⟩
  unfold pushU64
  rw [stackStore_returns (by omega) (by omega)]
  rfl

theorem pushPtrs_returns (low : p.userStackBottom.toNat + 8 * values.length ≤ s.sp.toNat)
    (high : s.sp.toNat ≤ p.rsp.toNat) : ∃ next, pushPtrs p values s = .ok next := by
  induction values generalizing s with
  | nil => exact ⟨s,rfl⟩
  | cons value values ih =>
    rw [List.length_cons] at low
    obtain ⟨first,pushed⟩ := pushU64_returns (by omega) high value
    obtain ⟨moved,_,_⟩ := pushU64_spec pushed
    have room : p.userStackBottom.toNat + 8 * values.length ≤ first.sp.toNat := by omega
    obtain ⟨next,later⟩ := ih room (by omega)
    refine ⟨next,?_⟩
    unfold pushPtrs pushPtr
    rw [pushed]
    exact later

theorem pushString_returns (low : p.userStackBottom.toNat + (text.length + 1) ≤ s.sp.toNat)
    (high : s.sp.toNat ≤ p.rsp.toNat) :
    ∃ ptr next, pushString p text s = .ok (ptr,next) ∧ next.sp.toNat + (text.length + 1) = s.sp.toNat := by
  have top := s.sp.isLt
  have length : (BitVec.ofNat 64 (text.length + 1)).toNat = text.length + 1 := by
    rw [BitVec.toNat_ofNat]
    exact Nat.mod_eq_of_lt (by omega)
  have moved : (s.sp - BitVec.ofNat 64 (text.length + 1)).toNat + (text.length + 1) = s.sp.toNat := by
    generalize BitVec.ofNat 64 (text.length + 1) = len at *
    bv_omega
  let ptr := s.sp - BitVec.ofNat 64 (text.length + 1)
  refine ⟨ptr,⟨copy s.mem ptr.toNat (stringByte text) (text.length + 1),ptr⟩,?_,moved⟩
  unfold pushString
  dsimp only
  rw [stackStore_returns (by omega) (by omega)]
  rfl

def textsLength (texts : List (List (BitVec 8))) : Nat := (texts.map fun text => text.length + 1).sum

theorem pushStrings_returns (low : p.userStackBottom.toNat + textsLength texts ≤ s.sp.toNat)
    (high : s.sp.toNat ≤ p.rsp.toNat) :
    ∃ ptrs next, pushStrings p texts s = .ok (ptrs,next) ∧ next.sp.toNat + textsLength texts = s.sp.toNat := by
  induction texts generalizing s with
  | nil => exact ⟨[],s,rfl,rfl⟩
  | cons text texts ih =>
    have total : textsLength (text :: texts) = text.length + 1 + textsLength texts := rfl
    rw [total] at low
    have room : p.userStackBottom.toNat + (text.length + 1) ≤ s.sp.toNat := by omega
    obtain ⟨ptr,first,pushed,moved⟩ := pushString_returns room high
    have room' : p.userStackBottom.toNat + textsLength texts ≤ first.sp.toNat := by omega
    obtain ⟨ptrs,next,later,moved'⟩ := ih room' (by omega)
    refine ⟨ptr :: ptrs,next,?_,by omega⟩
    unfold pushStrings
    rw [pushed]
    change (pushStrings p texts first >>= _) = _
    rw [later]
    rfl

theorem pushRandom_returns (low : p.userStackBottom.toNat + 16 ≤ s.sp.toNat) (high : s.sp.toNat ≤ p.rsp.toNat)
    (uptime : U64) : ∃ next, pushRandom p uptime s = .ok next := by
  obtain ⟨first,pushed⟩ := pushU64_returns (by omega) high 0#64
  obtain ⟨moved,_,_⟩ := pushU64_spec pushed
  have room : p.userStackBottom.toNat + 8 ≤ first.sp.toNat := by omega
  obtain ⟨second,pushed'⟩ := pushU64_returns room (by omega) 0#64
  obtain ⟨moved',_,_⟩ := pushU64_spec pushed'
  have top := p.rsp.isLt
  have upper : (second.sp + 8#64).toNat = second.sp.toNat + 8 := by bv_omega
  unfold pushRandom
  rw [pushed]
  change ∃ next, (pushU64 p 0#64 first >>= _) = _
  rw [pushed']
  dsimp only [bind,Except.bind]
  rw [stackStore_returns (by omega) (by omega)]
  dsimp only
  rw [stackStore_returns (by omega) (by omega)]
  exact ⟨_,rfl⟩

theorem env_length : textsLength processDefaultEnv = 68 := by decide

/-- The name leaves room for what is pushed behind it. -/
theorem setupProcessStack_returns (info : ElfInfo) (uptime : U64) (m : Mem)
    (fits : p.userStackBottom.toNat + filename.length + 308 ≤ p.rsp.toNat) :
    ∃ rsp mem, setupProcessStack p filename info uptime m = .ok (rsp,mem) := by
  have room₁ : p.userStackBottom.toNat + (filename.length + 1) ≤ (⟨m,p.rsp⟩ : UserStack).sp.toNat := by
    dsimp only
    omega
  obtain ⟨name,s₁,named,moved₁⟩ := pushString_returns room₁ (Nat.le_refl _)
  dsimp only at moved₁
  have room₂ : p.userStackBottom.toNat + textsLength processDefaultEnv ≤ s₁.sp.toNat := by
    rw [env_length]
    omega
  obtain ⟨env,s₂,strings,moved₂⟩ := pushStrings_returns room₂ (by omega)
  rw [env_length] at moved₂
  have five : env.length = 5 := (pushStrings_spec strings).1.length_eq.symm
  have rounded := Words.toNat_and_not_low s₂.sp 4
  change (s₂.sp &&& ~~~15#64).toNat = _ at rounded
  have room₃ : p.userStackBottom.toNat + 16 ≤ (⟨s₂.mem,s₂.sp &&& ~~~15#64⟩ : UserStack).sp.toNat := by
    dsimp only
    omega
  obtain ⟨s₃,randomized⟩ := pushRandom_returns room₃ (by dsimp only; omega) uptime
  obtain ⟨moved₃,_⟩ := pushRandom_spec randomized
  dsimp only at moved₃
  have room₄ : p.userStackBottom.toNat + 8 * (auxiliaryVector p info name s₃.sp).reverse.length ≤ s₃.sp.toNat := by
    rw [List.length_reverse,show (auxiliaryVector p info name s₃.sp).length = 16 from rfl]
    omega
  obtain ⟨s₄,vector⟩ := pushPtrs_returns room₄ (by omega)
  obtain ⟨moved₄,_⟩ := pushPtrs_spec vector
  rw [List.length_reverse,show (auxiliaryVector p info name s₃.sp).length = 16 from rfl] at moved₄
  have room₅ : p.userStackBottom.toNat + 8 * ([0#64,0#64] ++ env.reverse ++ [0#64,name,1#64]).length ≤
      s₄.sp.toNat := by
    simp only [List.length_append,List.length_reverse,List.length_cons,List.length_nil,five]
    omega
  obtain ⟨s₅,arguments⟩ := pushPtrs_returns room₅ (by omega)
  rw [← pushAuxvs_eq] at vector
  rw [← pushArguments_eq five] at arguments
  refine ⟨s₅.sp,s₅.mem,?_⟩
  unfold setupProcessStack pushDefaultEnvStrings
  simp only [named,strings,randomized,vector,arguments,bind,Except.bind,pure,Except.pure]

def newStackOwner (pid entryPoint : U64) : StackOwner :=
  ⟨pid,entryPoint,0xF0000000#64,0xF0000000#64 - 32#64 * 4096#64⟩

/-- The first process of the system, started with its name and no other argument. -/
theorem entry_layout_init : ∃ rsp mem,
    setupProcessStack (newStackOwner 1#64 0x401000#64) (textBytes "/bin/init")
      ⟨0x401000#64,0#64,0x400040#64,3#16,56#16⟩ 5#64 (fun _ => 0#8) = .ok (rsp,mem) ∧
    load64 mem (rsp.toNat + 72) = atNull ∧
    ¬EntryLayout [] (newStackOwner 1#64 0x401000#64) (textBytes "/bin/init")
      ⟨0x401000#64,0#64,0x400040#64,3#16,56#16⟩ mem rsp := by
  have fits : (newStackOwner 1#64 0x401000#64).userStackBottom.toNat + (textBytes "/bin/init").length + 308 ≤
      (newStackOwner 1#64 0x401000#64).rsp.toNat := by decide
  obtain ⟨rsp,mem,returns⟩ := setupProcessStack_returns ⟨0x401000#64,0#64,0x400040#64,3#16,56#16⟩ 5#64
    (fun _ => 0#8) fits
  have padded := (setupProcessStack_layout returns).behind
  refine ⟨rsp,mem,returns,padded,fun layout => ?_⟩
  rw [layout.behind] at padded
  exact absurd padded (by decide)

end Reddyos

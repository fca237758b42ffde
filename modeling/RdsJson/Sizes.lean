import RdsJson.Generators
import RdsJson.Handler

/-! # Both passes agree

The functions that build the output count its bytes first and write them then.
What is counted is what is written, whatever the state they are called in. -/
namespace RdsJson.Sizes
open RdsJson.Lib.LittleEndian RdsJson.Lib.Outcome RdsJson.Nginx RdsJson.Rds RdsJson.Util
open RdsJson.Conf RdsJson.Context RdsJson.OutputMem RdsJson.Output RdsJson.WriteLayer
open RdsJson.Render RdsJson.Generators RdsJson.Handler

/-- A pass that counted `size` bytes is followed by one that writes as many. -/
def Agree (size : Option Nat) (bytes : Option Bytes) : Prop :=
  ∀ n ∈ size, ∃ bs ∈ bytes, bs.length = n

theorem agree_none (bytes : Option Bytes) : Agree none bytes := fun _ hn => nomatch hn

theorem agree_some {size : Nat} {bytes : Bytes} (h : size = bytes.length) :
    Agree (some size) (some bytes) := by
  intro n hn
  exact ⟨bytes, rfl, h.symm.trans (Option.some.inj hn)⟩

/-! ## Numbers -/

/-- Numbers of 64 bits have at most twenty digits. -/
theorem num_size_agrees (i : UInt64) :
    (snprintfNum NGX_UINT64_LEN i.toNat).length = getNumSize i.toNat := by
  rw [snprintfNum_uint64, getNumSize_eq]

/-! ## Fields -/

theorem field_open_agrees (format : Option Format) (ctx : Ctx) (col : Column) :
    Agree (fieldOpenSize format ctx col) (fieldOpenBytes format ctx col) := by
  unfold fieldOpenSize fieldOpenBytes
  split
  · refine agree_some ?_
    rw [copyEscaped_eq]
    split_ifs <;> simp [escapeJsonStr_length, lit] <;> omega
  · refine agree_some ?_
    split <;> rfl
  · exact agree_none _

theorem field_close_agrees (format : Option Format) (ctx : Ctx) :
    Agree (fieldCloseSize format ctx) (fieldCloseBytes format ctx) := by
  unfold fieldCloseSize fieldCloseBytes
  split
  · split
    · exact agree_some rfl
    · exact agree_some rfl
    · exact agree_none _
  · exact agree_some rfl

/-- Every value that is not refused is written as it was counted. -/
theorem field_value_agrees (ctx : Ctx) (col : Column) (data : Bytes) (isNull : Bool) :
    Agree (fieldValueSize ctx col data isNull) (some (fieldValueBytes ctx col data isNull)) := by
  cases isNull with
  | true =>
    unfold fieldValueSize
    split
    · exact agree_none _
    · exact agree_some rfl
  | false =>
    rw [fieldValue_eq]
    split
    · next hacc =>
      refine agree_some ?_
      rw [fieldValueBytes_eq ctx col data hacc]
    · exact agree_none _

theorem field_agrees (format : Option Format) (ctx : Ctx) (col : Column) (data : Bytes)
    (isNull : Bool) :
    Agree (fieldSize format ctx col data isNull) (fieldBytes format ctx col data isNull) := by
  intro n hn
  simp only [fieldSize, Option.mem_def, Option.bind_eq_bind, Option.bind_eq_some_iff,
    Option.some.injEq] at hn
  obtain ⟨_, hopen, _, hvalue, _, hclose, rfl⟩ := hn
  obtain ⟨opening, hopening, rfl⟩ := field_open_agrees format ctx col _ hopen
  obtain ⟨value, hbytes, rfl⟩ := field_value_agrees ctx col data isNull _ hvalue
  obtain ⟨closing, hclosing, rfl⟩ := field_close_agrees format ctx _ hclose
  obtain rfl := Option.some.inj hbytes
  refine ⟨opening ++ fieldValueBytes ctx col data isNull ++ closing, ?_, ?_⟩
  · simp [fieldBytes, Option.mem_def.mp hopening, Option.mem_def.mp hclosing]
  · rw [List.length_append, List.length_append]

theorem more_data_agrees (ctx : Ctx) (col : Column) (data : Bytes) :
    Agree (moreDataSize ctx col data) (some (moreDataBytes ctx col data)) := by
  unfold moreDataSize moreDataBytes
  cases col.rough with
  | int =>
    dsimp only
    split
    · exact agree_some rfl
    · exact agree_none _
  | float => exact agree_some rfl
  | bool => exact agree_some rfl
  | str =>
    refine agree_some ?_
    rw [copyEscaped_eq]
    split_ifs <;> simp [escapeJsonStr_length, lit]

theorem more_agrees (format : Option Format) (ctx : Ctx) (col : Column) (data : Bytes) :
    Agree (moreSize format ctx col data) (moreBytes format ctx col data) := by
  intro n hn
  simp only [moreSize, Option.mem_def, Option.bind_eq_bind, Option.bind_eq_some_iff,
    Option.some.injEq] at hn
  obtain ⟨_, hvalue, _, hclose, rfl⟩ := hn
  obtain ⟨value, hbytes, rfl⟩ := more_data_agrees ctx col data _ hvalue
  obtain ⟨closing, hclosing, rfl⟩ := field_close_agrees format ctx _ hclose
  obtain rfl := Option.some.inj hbytes
  refine ⟨moreDataBytes ctx col data ++ closing, ?_, ?_⟩
  · simp [moreBytes, Option.mem_def.mp hclosing]
  · rw [List.length_append]

/-! ## Around the rows -/

theorem cols_agree (cols : List Column) :
    2 + colsListSize cols = (lit "[" ++ colsListBytes cols ++ lit "]").length := by
  have hopen : (lit "[").length = 1 := rfl
  have hclose : (lit "]").length = 1 := rfl
  rw [List.length_append, List.length_append, colsListSize_eq, hopen, hclose]
  omega

/-! ## The handler -/

theorem ret_props_agree (values : List Evaluated) :
    propsSize values = (retPropsBytes values).length := by
  have hcomma : (lit ",").length = 1 := rfl
  have hcolon : (lit ":").length = 1 := rfl
  have hquote : (lit "\"").length = 1 := rfl
  induction values with
  | nil => rfl
  | cons p values ih =>
    simp only [propsSize, retPropsBytes, List.length_append, copyEscaped_eq, escapeJsonStr_length,
      ih, hcomma, hcolon, hquote]
    omega

theorem ret_agrees (ngxAtoi : Bytes → Int) (conf : LocConf) (errstr : Bytes)
    (values : List Evaluated) :
    retSize ngxAtoi conf errstr values = (retBytes ngxAtoi conf errstr values).length := by
  have herrstr : (if errstr.length ≠ 0 then
      1 + conf.errstrKey.len + 1 + 1 + errstr.length + escapeJsonStrExtra errstr + 1 else 0) =
      (if errstr.length ≠ 0 then lit "," ++ conf.errstrKey.bytes ++ lit ":" ++ lit "\"" ++
        escapeJsonStr errstr ++ lit "\"" else []).length := by
    split_ifs
    · simp [Str.len, lit, escapeJsonStr_length]
      omega
    · rfl
  have hsuccess : (if conf.success.len ≠ 0 then
      conf.success.len + 2 + (if ngxAtoi conf.errcode.bytes = 0 then 4 else 5) else 0) =
      (if conf.success.len ≠ 0 then lit "," ++ conf.success.bytes ++
        (if ngxAtoi conf.errcode.bytes = 0 then lit ":true" else lit ":false") else []).length := by
    split_ifs <;> simp [Str.len, lit]
  have hopen : (lit "\x7b").length = 1 := rfl
  have hcolon : (lit ":").length = 1 := rfl
  have hclose : (lit "\x7d").length = 1 := rfl
  unfold retSize retBytes
  simp only [copyEscaped_eq, ret_props_agree, List.length_append, herrstr, hsuccess, hopen, hcolon,
    hclose]
  rw [Str.len, Str.len]
  omega

/-- The handler sends what it built, unless there is no memory. -/
theorem retHandler_cases (env : Env) (ngxAtoi : Bytes → Int) {w : World} {text : Bytes}
    (htext : w.r.conf.errstr = some text) :
    ∃ n, (retHandler env ngxAtoi w = .ok (NGX_ERROR, { w with out := { w.out with allocs := n } }) ∧
        ∃ k, env.alloc k = false) ∨
      retHandler env ngxAtoi w = .ok (sendRet env { w with out := { w.out with allocs := n } }
        (retBytes ngxAtoi w.r.conf (env.complexValue text) (evaluated env.complexValue w.r.conf))) := by
  unfold retHandler
  rw [htext]
  unfold World.palloc OutCtx.palloc
  dsimp only
  cases hal : env.alloc w.out.allocs with
  | false => exact ⟨_, .inl ⟨rfl, _, hal⟩⟩
  | true =>
    obtain ⟨values, n, heval, hvalues⟩ :=
      evalUserProps_spec env { w.out with allocs := w.out.allocs + 1 } w.r.conf
    simp only [Bool.not_true, Bool.false_eq_true, if_false, heval]
    cases values with
    | none => exact ⟨_, .inl ⟨rfl, hvalues⟩⟩
    | some values =>
      obtain rfl : values = evaluated env.complexValue w.r.conf := hvalues
      simp only [ret_agrees, lt_irrefl, if_false, ne_eq, not_true_eq_false]
      cases hlink : env.alloc n with
      | false => exact ⟨_, .inl ⟨rfl, _, hlink⟩⟩
      | true =>
        cases hbuf : env.alloc (n + 1) with
        | false => exact ⟨_, .inl ⟨rfl, _, hbuf⟩⟩
        | true => exact ⟨_, .inr rfl⟩

/-! ## Nothing but what was counted -/

variable (env : Env) (B : Nat)

/-- A write without the comparison behind it: what is submitted is what was
written, all of it, into room for as much. -/
def exactWrite (o : OutCtx) (bytes : Bytes) (final lastBuf : Bool) : Except Fault (Int × OutCtx) :=
  match requestMem env B o bytes.length with
  | (none, o) => .ok (NGX_ERROR, o)
  | (some area, o) =>
    let o := match area with
      | .inPlace => o
      | .scratch => { o with postponed := some bytes }
    submitMem env B { o with seenStreamEnd := o.seenStreamEnd || final } bytes lastBuf

theorem writeMem_exact (o : OutCtx) {size : Nat} {bytes : Bytes} (h : size = bytes.length)
    (checked final lastBuf : Bool) :
    writeMem env B o size bytes checked final lastBuf = exactWrite env B o bytes final lastBuf := by
  subst h
  unfold writeMem exactWrite
  cases requestMem env B o bytes.length with
  | mk area o =>
    cases area with
    | none => rfl
    | some area => cases area <;> simp

/-- What an exact write does where the output is ready for it. -/
theorem exactWrite_spec {B : Nat} {o : OutCtx} (h : Ready B o) (bytes : Bytes)
    (final lastBuf : Bool) :
    Yields (EndlessIn B) (exactWrite env B o bytes final lastBuf)
      (Ends env B (lastBuf && decide (Marks B o bytes.length))
        { o with seenStreamEnd := o.seenStreamEnd || final } bytes) := by
  rw [← writeMem_exact env B o rfl true final lastBuf]
  exact writeMem_spec env h bytes true final lastBuf

/-- The write fits where it goes. -/
theorem exactWrite_no_overrun {B : Nat} {o : OutCtx} (h : Ready B o) (bytes : Bytes)
    (final lastBuf : Bool) : exactWrite env B o bytes final lastBuf ≠ .error .overrun := by
  intro hrun
  have hspec := exactWrite_spec env h bytes final lastBuf
  rw [hrun] at hspec
  exact nomatch hspec.1

/-- A format that has no opening is refused before anything is counted. -/
theorem supported_of_fieldSize {format : Option Format} {ctx : Ctx} {col : Column} {data : Bytes}
    {isNull : Bool} {size : Nat} (h : fieldSize format ctx col data isNull = some size) :
    ¬ (format ≠ some .normal ∧ format ≠ some .compact) := by
  intro hformat
  have hopen : fieldOpenSize format ctx col = none := by
    unfold fieldOpenSize
    split
    · exact absurd rfl hformat.1
    · exact absurd rfl hformat.2
    · rfl
  simp [fieldSize, hopen] at h

/-! ### The functions -/

theorem outputHeader_exact (r : Request) {o o' : OutCtx} (h : Header) {values : List Evaluated}
    (heval : evalUserProps env o r.conf = (some values, o')) :
    outputHeader env r o h =
      exactWrite env r.conf.bufBytes o' (headerBytes r.conf values h) true r.main := by
  rw [outputHeader, heval]
  exact writeMem_exact env _ o' (headerSize_eq r.conf values h) true true r.main

theorem outputProps_exact (r : Request) {o o' : OutCtx} {values : List Evaluated}
    (heval : evalUserProps env o r.conf = (some values, o')) :
    outputProps env r o =
      exactWrite env r.conf.bufBytes o' (propsBeginBytes r.conf values) false false := by
  rw [outputProps, heval]
  exact writeMem_exact env _ o' (propsBeginSize_eq r.conf values) true false false

theorem outputCols_exact (r : Request) {ctx : Ctx} (o : OutCtx) {cols : List Column}
    (hcols : getCols ctx.cols ctx.colCount = .ok cols) :
    outputCols env r ctx o = (do
      let (rc, o) ← exactWrite env r.conf.bufBytes o (lit "[" ++ colsListBytes cols ++ lit "]")
        false false
      .ok (rc, { ctx with generatedColNames := true }, o)) := by
  rw [outputCols, hcols, ok_bind, writeMem_exact env _ o (cols_agree cols)]

theorem outputField_exact {r : Request} {ctx : Ctx} (o : OutCtx) {data : Bytes} {isNull : Bool}
    {col : Column} {size : Nat} (hcol : getCol ctx.cols ctx.curCol = .ok col)
    (hsize : fieldSize r.conf.format ctx col data isNull = some size) :
    ∃ bytes, fieldBytes r.conf.format ctx col data isNull = some bytes ∧ bytes.length = size ∧
      outputField env r ctx o data isNull = exactWrite env r.conf.bufBytes o bytes false false := by
  obtain ⟨bytes, hbytes, hlen⟩ := field_agrees r.conf.format ctx col data isNull size hsize
  refine ⟨bytes, hbytes, hlen, ?_⟩
  rw [outputField, if_neg (supported_of_fieldSize hsize), hcol, ok_bind, hsize,
    Option.mem_def.mp hbytes]
  exact writeMem_exact env _ o hlen.symm true false false

theorem outputMoreFieldData_exact {r : Request} {ctx : Ctx} (o : OutCtx) {data : Bytes}
    {col : Column} {size : Nat} (hcol : getCol ctx.cols ctx.curCol = .ok col)
    (hsize : moreSize r.conf.format ctx col data = some size) :
    ∃ bytes, moreBytes r.conf.format ctx col data = some bytes ∧ bytes.length = size ∧
      outputMoreFieldData env r ctx o data = exactWrite env r.conf.bufBytes o bytes false false := by
  obtain ⟨bytes, hbytes, hlen⟩ := more_agrees r.conf.format ctx col data size hsize
  refine ⟨bytes, hbytes, hlen, ?_⟩
  rw [outputMoreFieldData, hcol, ok_bind, hsize, Option.mem_def.mp hbytes]
  exact writeMem_exact env _ o hlen.symm true false false

/-! ### Any of the functions -/

/-- The functions that write, each with what it is called with. -/
inductive Generator where
  | literal (main : Bool) (data : Bytes) (lastBuf : Bool)
  | header (r : Request) (h : Header)
  | props (r : Request)
  | cols (r : Request) (ctx : Ctx)
  | field (r : Request) (ctx : Ctx) (data : Bytes) (isNull : Bool)
  | moreFieldData (r : Request) (ctx : Ctx) (data : Bytes)

def Generator.run (env : Env) (B : Nat) (o : OutCtx) : Generator → Except Fault (Int × OutCtx)
  | .literal main data lastBuf => outputLiteral env B main o data lastBuf
  | .header r h => outputHeader env r o h
  | .props r => outputProps env r o
  | .cols r ctx => do
    let (rc, _, o) ← outputCols env r ctx o
    .ok (rc, o)
  | .field r ctx data isNull => outputField env r ctx o data isNull
  | .moreFieldData r ctx data => outputMoreFieldData env r ctx o data

/-- `rds_json_buffer_size` is the same throughout. -/
def Generator.Sized (B : Nat) : Generator → Prop
  | .literal _ _ _ => True
  | .header r _ => r.conf.bufBytes = B
  | .props r => r.conf.bufBytes = B
  | .cols r _ => r.conf.bufBytes = B
  | .field r _ _ _ => r.conf.bufBytes = B
  | .moreFieldData r _ _ => r.conf.bufBytes = B

/-- The column looked at is not there. -/
def NoColumn (e : Fault) : Prop := e = .colIndex ∨ e = .colUninitialised

theorem getCol_yields (cols : List (Option Column)) (i : Nat) :
    Yields NoColumn (getCol cols i) fun _ => True := by
  unfold getCol
  split
  · exact .inl rfl
  · exact .inr rfl
  · trivial

theorem getCols_yields (cols : List (Option Column)) (n : Nat) :
    Yields NoColumn (getCols cols n) fun _ => True := by
  induction n with
  | zero => trivial
  | succ n ih =>
    unfold getCols
    refine ih.bind fun rest _ => (getCol_yields cols n).bind fun col _ => ?_
    trivial

/-- What holds of a refusal and of every exact write holds of what the functions do:
they take memory for the values of properties at most, look for a column, refuse,
or write. -/
theorem Generator.run_yields {env : Env} {B : Nat} {o : OutCtx} {E : Fault → Prop}
    {P : Int × OutCtx → Prop} (g : Generator) (hsized : g.Sized B)
    (hmissing : ∀ e, NoColumn e → E e)
    (hrefused : ∀ n, P (NGX_ERROR, { o with allocs := n }))
    (hwrite : ∀ n bytes final lastBuf,
      Yields E (exactWrite env B { o with allocs := n } bytes final lastBuf) P) :
    Yields E (g.run env B o) P := by
  cases g with
  | literal main data lastBuf =>
    rw [Generator.run, outputLiteral, writeMem_exact env B o rfl]
    exact hwrite o.allocs _ _ _
  | header r h =>
    obtain rfl := hsized
    obtain ⟨values, n, heval, -⟩ := evalUserProps_spec env o r.conf
    rw [Generator.run]
    cases values with
    | none =>
      rw [outputHeader, heval]
      exact hrefused n
    | some values =>
      rw [outputHeader_exact env r h heval]
      exact hwrite n _ _ _
  | props r =>
    obtain rfl := hsized
    obtain ⟨values, n, heval, -⟩ := evalUserProps_spec env o r.conf
    rw [Generator.run]
    cases values with
    | none =>
      rw [outputProps, heval]
      exact hrefused n
    | some values =>
      rw [outputProps_exact env r heval]
      exact hwrite n _ _ _
  | cols r ctx =>
    obtain rfl := hsized
    rw [Generator.run]
    obtain ⟨cols, hcols, -⟩ | ⟨e, hcols, he⟩ :=
      (getCols_yields ctx.cols ctx.colCount).ok_or_error
    · rw [outputCols_exact env r o hcols, bind_assoc]
      exact (hwrite o.allocs _ _ _).bind fun _ hr => hr
    · rw [outputCols, hcols]
      exact hmissing e he
  | field r ctx data isNull =>
    obtain rfl := hsized
    rw [Generator.run]
    obtain ⟨col, hcol, -⟩ | ⟨e, hcol, he⟩ := (getCol_yields ctx.cols ctx.curCol).ok_or_error
    · cases hsize : fieldSize r.conf.format ctx col data isNull with
      | none =>
        rw [outputField, hcol, ok_bind, hsize]
        split
        · exact hrefused o.allocs
        · exact hrefused o.allocs
      | some size =>
        obtain ⟨bytes, -, -, heq⟩ := outputField_exact env o hcol hsize
        rw [heq]
        exact hwrite o.allocs _ _ _
    · rw [outputField, hcol]
      split
      · exact hrefused o.allocs
      · exact hmissing e he
  | moreFieldData r ctx data =>
    obtain rfl := hsized
    rw [Generator.run]
    obtain ⟨col, hcol, -⟩ | ⟨e, hcol, he⟩ := (getCol_yields ctx.cols ctx.curCol).ok_or_error
    · cases hsize : moreSize r.conf.format ctx col data with
      | none =>
        rw [outputMoreFieldData, hcol, ok_bind, hsize]
        exact hrefused o.allocs
      | some size =>
        obtain ⟨bytes, -, -, heq⟩ := outputMoreFieldData_exact env o hcol hsize
        rw [heq]
        exact hwrite o.allocs _ _ _
    · rw [outputMoreFieldData, hcol]
      exact hmissing e he

/-- What both passes of the six functions have to do with each other: the second
writes as many bytes as the first counted, so that its check passes. -/
structure PassesAgree (env : Env) (ngxAtoi : Bytes → Int) : Prop where
  num : ∀ i : UInt64, getNumSize i.toNat = (snprintfNum NGX_UINT64_LEN i.toNat).length
  header : ∀ r o h values o', evalUserProps env o r.conf = (some values, o') →
    (headerBytes r.conf values h).length = headerSize r.conf values h ∧
      outputHeader env r o h =
        exactWrite env r.conf.bufBytes o' (headerBytes r.conf values h) true r.main
  props : ∀ r o values o', evalUserProps env o r.conf = (some values, o') →
    (propsBeginBytes r.conf values).length = propsBeginSize r.conf values ∧
      outputProps env r o =
        exactWrite env r.conf.bufBytes o' (propsBeginBytes r.conf values) false false
  cols : ∀ r ctx o cols, getCols ctx.cols ctx.colCount = .ok cols →
    (lit "[" ++ colsListBytes cols ++ lit "]").length = 2 + colsListSize cols ∧
      outputCols env r ctx o = do
        let (rc, o) ← exactWrite env r.conf.bufBytes o (lit "[" ++ colsListBytes cols ++ lit "]")
          false false
        .ok (rc, { ctx with generatedColNames := true }, o)
  field : ∀ r ctx o data isNull col size, getCol ctx.cols ctx.curCol = .ok col →
    fieldSize r.conf.format ctx col data isNull = some size →
    ∃ bytes, fieldBytes r.conf.format ctx col data isNull = some bytes ∧ bytes.length = size ∧
      outputField env r ctx o data isNull = exactWrite env r.conf.bufBytes o bytes false false
  more : ∀ r ctx o data col size, getCol ctx.cols ctx.curCol = .ok col →
    moreSize r.conf.format ctx col data = some size →
    ∃ bytes, moreBytes r.conf.format ctx col data = some bytes ∧ bytes.length = size ∧
      outputMoreFieldData env r ctx o data = exactWrite env r.conf.bufBytes o bytes false false
  ret : ∀ conf errstr values,
    (retBytes ngxAtoi conf errstr values).length = retSize ngxAtoi conf errstr values
  retSent : ∀ w text, w.r.conf.errstr = some text → ∃ n,
    (retHandler env ngxAtoi w = .ok (NGX_ERROR, { w with out := { w.out with allocs := n } }) ∧
        ∃ k, env.alloc k = false) ∨
      retHandler env ngxAtoi w = .ok (sendRet env { w with out := { w.out with allocs := n } }
        (retBytes ngxAtoi w.r.conf (env.complexValue text) (evaluated env.complexValue w.r.conf)))

/-- The two passes agree in every function and every state, and from a state that
the write layer keeps no write goes past the end of the memory it asked for. -/
theorem two_passes_agree (env : Env) (ngxAtoi : Bytes → Int) :
    PassesAgree env ngxAtoi ∧ ∀ B o, Ready B o → ∀ bytes final lastBuf,
      exactWrite env B o bytes final lastBuf ≠ .error .overrun := by
  refine ⟨?_, fun _ _ h bytes final lastBuf => exactWrite_no_overrun env h bytes final lastBuf⟩
  constructor
  · exact fun i => (num_size_agrees i).symm
  · exact fun r o h values o' heval =>
      ⟨(headerSize_eq r.conf values h).symm, outputHeader_exact env r h heval⟩
  · exact fun r o values o' heval =>
      ⟨(propsBeginSize_eq r.conf values).symm, outputProps_exact env r heval⟩
  · exact fun r ctx o cols hcols => ⟨(cols_agree cols).symm, outputCols_exact env r o hcols⟩
  · exact fun r ctx o data isNull col size hcol hsize => outputField_exact env o hcol hsize
  · exact fun r ctx o data col size hcol hsize => outputMoreFieldData_exact env o hcol hsize
  · exact fun conf errstr values => (ret_agrees ngxAtoi conf errstr values).symm
  · exact fun w text htext => retHandler_cases env ngxAtoi htext

end RdsJson.Sizes

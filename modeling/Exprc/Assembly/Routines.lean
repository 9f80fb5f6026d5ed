/-
The support routines of compiled programs: printing an integer, printing a boolean and reading an
integer. A routine takes its argument in `rdi` and returns in `rax`, and talks to the system by
system calls alone.
-/
import Exprc.Assembly.Instr

namespace Exprc.Assembly.Routines

open Operand Reg Line

/-! ## Ways to write a line -/

/-- A line with an instruction without operands. -/
def zero (op : Plain) : Line := .ofInstr (.plain op)

/-- A line with an instruction with one operand. -/
def one (op : Unary) (operand : Operand) : Line := .ofInstr (.unary op operand)

/-- A line with an instruction with two operands. -/
def two (op : Binary) (target source : Operand) : Line := .ofInstr (.binary op target source)

/-- A line that jumps inside the routine. -/
def jump (name : String) : Line := .ofInstr (.jump (.inner name))

/-- A line that jumps inside the routine if a condition holds. -/
def jumpIf (c : Condition) (name : String) : Line := .ofInstr (.jumpIf c (.inner name))

/-! ## The routines -/

/-- What the text of the routines begins with. -/
def opening : List Line :=
  [comment "runtime support for x86_64-linux-gnu programs", comment "",
    comment "every function takes its argument in rdi and returns in rax,",
    comment "only raw syscalls are used so the program links without a libc", blank, wordSize,
    relativeAddresses, blank, exported (.plain "print_int"), exported (.plain "print_bool"),
    exported (.plain "read_int"), blank, part "text", blank]

/-- Prints an integer: its decimal digits are written backwards into a buffer of 32 bytes, which is
then handed to the system in one piece. -/
def printInt : List Line :=
  [comment "prints rdi as a signed decimal followed by a newline", label (.plain "print_int"),
    one .push (reg rbp), two .mov (reg rbp) (reg rsp), two .sub (reg rsp) (imm 32), blank,
    note "digits are written backwards, ending right below rbp",
    two .lea (reg rsi) (mem none rbp 1), two .mov (mem (some .byte) rsi 0) (imm 10), blank,
    two .mov (reg rax) (reg rdi), two .mov (reg r8) (reg rdi), two .mov (reg rcx) (imm 10), blank,
    label (.inner "digit"), note "the remainder has the sign of the dividend", zero .cqo,
    one .idiv (reg rcx), two .test (reg rdx) (reg rdx), jumpIf .notSign "positive",
    one .neg (reg rdx), label (.inner "positive"), two .add (low rdx) (char '0'),
    one .dec (reg rsi), two .mov (mem none rsi 0) (low rdx), two .test (reg rax) (reg rax),
    jumpIf .notZero "digit", blank, two .test (reg r8) (reg r8), jumpIf .notSign "write",
    one .dec (reg rsi), two .mov (mem (some .byte) rsi 0) (char '-'), blank, label (.inner "write"),
    (two .mov (reg rax) (imm 1)).remark "write", (two .mov (reg rdi) (imm 1)).remark "stdout",
    two .mov (reg rdx) (reg rbp), two .sub (reg rdx) (reg rsi), zero .syscall, blank,
    two .xor (reg rax) (reg rax), two .mov (reg rsp) (reg rbp), one .pop (reg rbp), zero .ret,
    blank]

/-- Prints a boolean. -/
def printBool : List Line :=
  [comment "prints \"true\" or \"false\" followed by a newline", label (.plain "print_bool"),
    two .test (reg rdi) (reg rdi), jumpIf .zero "false",
    two .lea (reg rsi) (data (.plain "true_text")),
    two .mov (reg rdx) (constant (.plain "true_text_len")), jump "write", label (.inner "false"),
    two .lea (reg rsi) (data (.plain "false_text")),
    two .mov (reg rdx) (constant (.plain "false_text_len")), label (.inner "write"),
    (two .mov (reg rax) (imm 1)).remark "write", (two .mov (reg rdi) (imm 1)).remark "stdout",
    zero .syscall, blank, two .xor (reg rax) (reg rax), zero .ret, blank]

/-- Reads an integer: it takes a line byte by byte, and ends the program if the line holds no
integer. -/
def readInt : List Line :=
  [comment "reads one line from stdin and parses it as a signed decimal, surrounding",
    comment "whitespace is ignored, exits with code 1 when the line is not an integer",
    label (.plain "read_int"), one .push (reg rbp), two .mov (reg rbp) (reg rsp),
    two .sub (reg rsp) (imm 16), one .push (reg rbx), one .push (reg r12), one .push (reg r13),
    one .push (reg r14), blank, (two .xor (reg rbx) (reg rbx)).remark "value",
    (two .xor (reg r12) (reg r12)).remark "sign: 0 none, 1 minus, 2 plus",
    (two .xor (reg r13) (reg r13)).remark "digit count",
    (two .xor (reg r14) (reg r14)).remark "whitespace seen after the number started", blank,
    label (.inner "next"), (two .mov (reg rax) (imm 0)).remark "read",
    (two .mov (reg rdi) (imm 0)).remark "stdin", two .lea (reg rsi) (mem none rbp 1),
    two .mov (reg rdx) (imm 1), zero .syscall, two .cmp (reg rax) (imm 1), jumpIf .notEqual "done",
    blank, two .movzx (reg rax) (mem (some .byte) rbp 1), two .cmp (reg rax) (imm 10),
    jumpIf .equal "done", two .cmp (reg rax) (char ' '), jumpIf .equal "space",
    two .cmp (reg rax) (imm 9), jumpIf .equal "space", two .cmp (reg rax) (imm 13),
    jumpIf .equal "space", blank, note "nothing but whitespace may follow the number",
    two .test (reg r14) (reg r14), jumpIf .notZero "invalid", blank, two .cmp (reg rax) (char '-'),
    jumpIf .equal "minus", two .cmp (reg rax) (char '+'), jumpIf .equal "plus", jump "digit", blank,
    label (.inner "space"), two .mov (reg rcx) (reg r12), two .or (reg rcx) (reg r13),
    jumpIf .zero "next", two .mov (reg r14) (imm 1), jump "next", blank, label (.inner "minus"),
    two .mov (reg rcx) (imm 1), jump "sign", label (.inner "plus"), two .mov (reg rcx) (imm 2),
    label (.inner "sign"), note "a sign is only allowed before the first digit",
    two .test (reg r13) (reg r13), jumpIf .notZero "invalid", two .test (reg r12) (reg r12),
    jumpIf .notZero "invalid", two .mov (reg r12) (reg rcx), jump "next", blank,
    label (.inner "digit"), two .sub (reg rax) (char '0'), two .cmp (reg rax) (imm 9),
    jumpIf .above "invalid", .ofInstr (.scale (reg rbx) (reg rbx) 10), two .add (reg rbx) (reg rax),
    one .inc (reg r13), jump "next", blank, label (.inner "done"), two .test (reg r13) (reg r13),
    jumpIf .zero "invalid", blank, two .mov (reg rax) (reg rbx), two .cmp (reg r12) (imm 1),
    jumpIf .notEqual "exit", one .neg (reg rax), blank, label (.inner "exit"), one .pop (reg r14),
    one .pop (reg r13), one .pop (reg r12), one .pop (reg rbx), two .mov (reg rsp) (reg rbp),
    one .pop (reg rbp), zero .ret, blank, label (.inner "invalid"),
    (two .mov (reg rax) (imm 1)).remark "write", (two .mov (reg rdi) (imm 2)).remark "stderr",
    two .lea (reg rsi) (data (.plain "read_int_error")),
    two .mov (reg rdx) (constant (.plain "read_int_error_len")), zero .syscall, blank,
    (two .mov (reg rax) (imm 60)).remark "exit", two .mov (reg rdi) (imm 1), zero .syscall, blank]

/-- The texts that the routines print. -/
def texts : List Line :=
  [part "rodata", blank, textData (.plain "true_text") "true",
    lengthOf (.plain "true_text_len") (.plain "true_text"), textData (.plain "false_text") "false",
    lengthOf (.plain "false_text_len") (.plain "false_text"),
    textData (.plain "read_int_error") "read_int: expected an integer",
    lengthOf (.plain "read_int_error_len") (.plain "read_int_error")]

/-- The text of all support routines. -/
def all : List Line := opening ++ printInt ++ printBool ++ readInt ++ texts

end Exprc.Assembly.Routines

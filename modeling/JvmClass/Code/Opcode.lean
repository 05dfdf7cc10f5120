/-!
# Opcodes

The operation codes of the instruction set, by their mnemonics, and the groups of them that other
modules tell apart. Codes of one group are consecutive, in the order of the value types `int`,
`long`, `float`, `double` and reference where they come per type.
-/

namespace JvmClass.Opcode

def nop : UInt8 := 0
def aconst_null : UInt8 := 1
def iconst_m1 : UInt8 := 2
def iconst_0 : UInt8 := 3
def iconst_1 : UInt8 := 4
def iconst_2 : UInt8 := 5
def iconst_3 : UInt8 := 6
def iconst_4 : UInt8 := 7
def iconst_5 : UInt8 := 8
def lconst_0 : UInt8 := 9
def lconst_1 : UInt8 := 10
def fconst_0 : UInt8 := 11
def fconst_1 : UInt8 := 12
def fconst_2 : UInt8 := 13
def dconst_0 : UInt8 := 14
def dconst_1 : UInt8 := 15
def bipush : UInt8 := 16
def sipush : UInt8 := 17
def ldc : UInt8 := 18
def ldc_w : UInt8 := 19
def ldc2_w : UInt8 := 20
def iload : UInt8 := 21
def lload : UInt8 := 22
def fload : UInt8 := 23
def dload : UInt8 := 24
def aload : UInt8 := 25
def iload_0 : UInt8 := 26
def iload_1 : UInt8 := 27
def iload_2 : UInt8 := 28
def iload_3 : UInt8 := 29
def lload_0 : UInt8 := 30
def lload_1 : UInt8 := 31
def lload_2 : UInt8 := 32
def lload_3 : UInt8 := 33
def fload_0 : UInt8 := 34
def fload_1 : UInt8 := 35
def fload_2 : UInt8 := 36
def fload_3 : UInt8 := 37
def dload_0 : UInt8 := 38
def dload_1 : UInt8 := 39
def dload_2 : UInt8 := 40
def dload_3 : UInt8 := 41
def aload_0 : UInt8 := 42
def aload_1 : UInt8 := 43
def aload_2 : UInt8 := 44
def aload_3 : UInt8 := 45
def iaload : UInt8 := 46
def laload : UInt8 := 47
def faload : UInt8 := 48
def daload : UInt8 := 49
def aaload : UInt8 := 50
def baload : UInt8 := 51
def caload : UInt8 := 52
def saload : UInt8 := 53
def istore : UInt8 := 54
def lstore : UInt8 := 55
def fstore : UInt8 := 56
def dstore : UInt8 := 57
def astore : UInt8 := 58
def istore_0 : UInt8 := 59
def istore_1 : UInt8 := 60
def istore_2 : UInt8 := 61
def istore_3 : UInt8 := 62
def lstore_0 : UInt8 := 63
def lstore_1 : UInt8 := 64
def lstore_2 : UInt8 := 65
def lstore_3 : UInt8 := 66
def fstore_0 : UInt8 := 67
def fstore_1 : UInt8 := 68
def fstore_2 : UInt8 := 69
def fstore_3 : UInt8 := 70
def dstore_0 : UInt8 := 71
def dstore_1 : UInt8 := 72
def dstore_2 : UInt8 := 73
def dstore_3 : UInt8 := 74
def astore_0 : UInt8 := 75
def astore_1 : UInt8 := 76
def astore_2 : UInt8 := 77
def astore_3 : UInt8 := 78
def iastore : UInt8 := 79
def lastore : UInt8 := 80
def fastore : UInt8 := 81
def dastore : UInt8 := 82
def aastore : UInt8 := 83
def bastore : UInt8 := 84
def castore : UInt8 := 85
def sastore : UInt8 := 86
def pop : UInt8 := 87
def pop2 : UInt8 := 88
def dup : UInt8 := 89
def dup_x1 : UInt8 := 90
def dup_x2 : UInt8 := 91
def dup2 : UInt8 := 92
def dup2_x1 : UInt8 := 93
def dup2_x2 : UInt8 := 94
def swap : UInt8 := 95
def iadd : UInt8 := 96
def ladd : UInt8 := 97
def fadd : UInt8 := 98
def dadd : UInt8 := 99
def isub : UInt8 := 100
def lsub : UInt8 := 101
def fsub : UInt8 := 102
def dsub : UInt8 := 103
def imul : UInt8 := 104
def lmul : UInt8 := 105
def fmul : UInt8 := 106
def dmul : UInt8 := 107
def idiv : UInt8 := 108
def ldiv : UInt8 := 109
def fdiv : UInt8 := 110
def ddiv : UInt8 := 111
def irem : UInt8 := 112
def lrem : UInt8 := 113
def frem : UInt8 := 114
def drem : UInt8 := 115
def ineg : UInt8 := 116
def lneg : UInt8 := 117
def fneg : UInt8 := 118
def dneg : UInt8 := 119
def ishl : UInt8 := 120
def lshl : UInt8 := 121
def ishr : UInt8 := 122
def lshr : UInt8 := 123
def iushr : UInt8 := 124
def lushr : UInt8 := 125
def iand : UInt8 := 126
def land : UInt8 := 127
def ior : UInt8 := 128
def lor : UInt8 := 129
def ixor : UInt8 := 130
def lxor : UInt8 := 131
def iinc : UInt8 := 132
def i2l : UInt8 := 133
def i2f : UInt8 := 134
def i2d : UInt8 := 135
def l2i : UInt8 := 136
def l2f : UInt8 := 137
def l2d : UInt8 := 138
def f2i : UInt8 := 139
def f2l : UInt8 := 140
def f2d : UInt8 := 141
def d2i : UInt8 := 142
def d2l : UInt8 := 143
def d2f : UInt8 := 144
def i2b : UInt8 := 145
def i2c : UInt8 := 146
def i2s : UInt8 := 147
def lcmp : UInt8 := 148
def fcmpl : UInt8 := 149
def fcmpg : UInt8 := 150
def dcmpl : UInt8 := 151
def dcmpg : UInt8 := 152
def ifeq : UInt8 := 153
def ifne : UInt8 := 154
def iflt : UInt8 := 155
def ifge : UInt8 := 156
def ifgt : UInt8 := 157
def ifle : UInt8 := 158
def if_icmpeq : UInt8 := 159
def if_icmpne : UInt8 := 160
def if_icmplt : UInt8 := 161
def if_icmpge : UInt8 := 162
def if_icmpgt : UInt8 := 163
def if_icmple : UInt8 := 164
def if_acmpeq : UInt8 := 165
def if_acmpne : UInt8 := 166
def goto : UInt8 := 167
def jsr : UInt8 := 168
def ret : UInt8 := 169
def tableswitch : UInt8 := 170
def lookupswitch : UInt8 := 171
def ireturn : UInt8 := 172
def lreturn : UInt8 := 173
def freturn : UInt8 := 174
def dreturn : UInt8 := 175
def areturn : UInt8 := 176
def return_void : UInt8 := 177
def getstatic : UInt8 := 178
def putstatic : UInt8 := 179
def getfield : UInt8 := 180
def putfield : UInt8 := 181
def invokevirtual : UInt8 := 182
def invokespecial : UInt8 := 183
def invokestatic : UInt8 := 184
def invokeinterface : UInt8 := 185
def invokedynamic : UInt8 := 186
def new : UInt8 := 187
def newarray : UInt8 := 188
def anewarray : UInt8 := 189
def arraylength : UInt8 := 190
def athrow : UInt8 := 191
def checkcast : UInt8 := 192
def instanceof : UInt8 := 193
def monitorenter : UInt8 := 194
def monitorexit : UInt8 := 195
def wide : UInt8 := 196
def multianewarray : UInt8 := 197
def ifnull : UInt8 := 198
def ifnonnull : UInt8 := 199
def goto_w : UInt8 := 200
def jsr_w : UInt8 := 201

/-- Whether a code lies between two others, ends included. -/
def within (first op last : UInt8) : Bool := first ≤ op && op ≤ last

/-- Loads of a local variable in their long form. -/
def isLoad (op : UInt8) : Bool := within iload op aload

/-- Stores to a local variable in their long form. -/
def isStore (op : UInt8) : Bool := within istore op astore

/-- Loads and stores of wide values. -/
def isWideAccess (op : UInt8) : Bool :=
  op == lload || op == dload || op == lstore || op == dstore

/-- Jumps that may fall through to the next instruction. -/
def isConditionalJump (op : UInt8) : Bool :=
  within ifeq op if_acmpne || op == ifnull || op == ifnonnull

def isGoto (op : UInt8) : Bool := op == goto || op == goto_w

def isSubroutineCall (op : UInt8) : Bool := op == jsr || op == jsr_w

/-- Instructions without operands after which the code does not go on. -/
def leavesMethod (op : UInt8) : Bool := within ireturn op return_void || op == athrow

end JvmClass.Opcode

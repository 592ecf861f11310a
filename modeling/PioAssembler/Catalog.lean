import PioAssembler.Assembly.Build

/-!
# Ready-made programs

A few small programs under their names, each as a source to be assembled.
-/

namespace PioAssembler

namespace Catalog

/-- A program with a name. -/
structure Entry where
  name : String
  source : List Statement
  deriving DecidableEq, Repr

/-- The assembled program. -/
def Entry.program (entry : Entry) : Except Failure Program :=
  (Session.attempt {} (assemble entry.source)).1

/-- Toggles a pin and holds each level for `y + 1` rounds of a loop; `y` is pulled once at the
start. -/
def blink : Entry where
  name := "blink"
  source := [
    .instruction .pullBlock,
    .instruction (.shiftOut .y 32),
    .wrapTarget,
    .instruction (.copy .x .y),
    .instruction (.set .pins 1),
    .label "lp1",
    .instruction (.jmp .xPostDecrement "lp1"),
    .instruction (.copy .x .y),
    .instruction (.set .pins 0),
    .label "lp2",
    .instruction (.jmp .xPostDecrement "lp2"),
    .wrap]

/-- Transfers bytes over I2C. SDA is the pin of `out`, `in` and `set`; SCL is the side-set pin and is
driven through its direction. What is pulled is either data or instructions to execute. -/
def i2c : Entry where
  name := "i2c"
  source := [
    .sideSet 1 true true,
    .label "do_nack",
    .instruction (.jmp .yPostDecrement "entry_point"),  -- not acknowledged, as expected
    .instruction (.irq .wait (relative 0)),             -- otherwise stop and ask for help
    .label "do_byte",
    .instruction (.set .x 7),
    .label "bitloop",
    .instruction (.shiftOut .pindirs 1), .delay 7,
    .instruction .nop, .side 1, .delay 2,               -- SCL rises
    .instruction (.wait true .pin 1), .delay 4,         -- the other side may stretch the clock
    .instruction (.shiftIn .pins 1), .delay 7,
    .instruction (.jmp .xPostDecrement "bitloop"), .side 0, .delay 7,
    -- the acknowledge bit
    .instruction (.shiftOut .pindirs 1), .delay 7,
    .instruction .nop, .side 1, .delay 7,
    .instruction (.wait true .pin 1), .delay 7,
    .instruction (.jmp .pin "do_nack"), .side 0, .delay 2,
    .label "entry_point",
    .wrapTarget,
    .instruction (.shiftOut .x 6),                      -- number of instructions
    .instruction (.shiftOut .y 1),                      -- whether to ignore a missing acknowledge
    .instruction (.jmp .xZero "do_byte"),
    .instruction (.shiftOut .null 32),
    .label "do_exec",
    .instruction (.shiftOut .exec 16),
    .instruction (.jmp .xPostDecrement "do_exec"),
    .wrap]

/-- Drives WS2812 LEDs at ten cycles per bit, with the data on the side-set pin: high for two cycles
at the start of a bit, then the bit itself for five, then low for three. -/
def ws2812 : Entry where
  name := "ws2812"
  source := [
    .sideSet 1 false false,
    .wrapTarget,
    .label "bitloop",
    .instruction (.shiftOut .x 1), .side 0, .delay (3 - 1),
    .instruction (.jmp .xZero "do_zero"), .side 1, .delay (2 - 1),
    .label "do_one",
    .instruction (.jmp .always "bitloop"), .side 1, .delay (5 - 1),
    .label "do_zero",
    .instruction .nop, .side 0, .delay (5 - 1),
    .wrap]

/-- All entries, in the order in which they are listed. -/
def entries : List Entry := [blink, i2c, ws2812]

/-- The entry with exactly the given name. -/
def find? (name : String) : Option Entry := entries.find? fun entry => entry.name = name

end Catalog

end PioAssembler

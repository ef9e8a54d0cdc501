import Mathlib.Tactic

/-!
Constants of `unyte_udp_constants.h`, `unyte_udp_defaults.h` and
`unyte_udp_utils.h`, and the C integer types the library uses. Fixed-width
integers are bit vectors, so that every wrap-around of the source is the
wrap-around of the model.
-/

namespace UdpNotif

/-- `uint8_t`, also one `char` of a receive buffer. -/
abbrev Uint8 := BitVec 8

/-- `uint16_t` -/
abbrev Uint16 := BitVec 16

/-- `uint32_t`, also `uint`. -/
abbrev Uint32 := BitVec 32

/-- Option type of the segmentation option. -/
def unyteTypeSegmentation : Uint8 := 1

/-- Mask of the space bit in the first header byte. -/
def spaceMask : Uint8 := 0b00010000

/-- Mask of the media type in the first header byte. -/
def etMask : Uint8 := 0b00001111

/-- Bytes of the fixed header. -/
abbrev headerBytes : Nat := 12

/-- Bytes of the segmentation option written by the sender. -/
abbrev unyteSegmentationOptionLen : Nat := 4

/-- Bytes of a receive buffer. -/
abbrev udpSize : Nat := 65535

/-- Number of buckets of a segment buffer. -/
abbrev sizeBuf : Nat := 10000

/-- Number of buckets visited by one clean up pass of the parser. -/
abbrev cleanUpPassSize : Nat := 500

/-- A parser cleans its buffer up only above this number of messages. -/
abbrev cleanCountMax : Nat := 50

/-- Seconds after which a stamped message is considered expired. -/
abbrev expireMsg : Int := 3

/-- Number of buckets of a worker's counters. -/
abbrev odidCounters : Nat := 10

/-- Cells by which the index array of active observation domain ids grows. -/
abbrev activeOdids : Uint32 := 500

/-- Times the monitoring thread considers an observation domain id active without stats. -/
abbrev odidTimeToLive : Int := 4

end UdpNotif

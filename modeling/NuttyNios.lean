import NuttyNios.Framing
import NuttyNios.Fixed
import NuttyNios.Fir
import NuttyNios.FixedPoint
import NuttyNios.Taps
import NuttyNios.Display
import NuttyNios.Printf
import NuttyNios.Firmware
import NuttyNios.Command
import NuttyNios.Scroll
import NuttyNios.Lookup
import NuttyNios.Leds
import NuttyNios.Controls
import NuttyNios.Text
import NuttyNios.Score
import NuttyNios.Main
import NuttyNios.Handover
import NuttyNios.Interrupt
import NuttyNios.Host
import NuttyNios.Literal
import NuttyNios.Lines
import NuttyNios.Link
import NuttyNios.AlarmRun
import NuttyNios.FileLocks
import NuttyNios.Takeover
import NuttyNios.Axis
